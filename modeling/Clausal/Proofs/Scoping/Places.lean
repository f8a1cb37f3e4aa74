import Clausal.Passes.Pipeline
import Clausal.Proofs.Tree.Marking

/-! # Lexical scoping

What a name means at a place of a module, said without walking over the module. -/

namespace Clausal.Scoping

open List Unfolding

/-! ### Declarations -/

/-- A declaration of a name: a parameter, by its number, or a local, by the element that declares it. -/
inductive Decl where
  | parameter (index : Nat)
  | local (element : ElementId) (constant : Bool)
deriving DecidableEq, Repr

def Decl.kind : Decl → BindingKind
  | .parameter _ => .parameter
  | .local .. => .local

def Decl.isConstant : Decl → Bool
  | .parameter _ => false
  | .local _ constant => constant

/-- The names of a list that were not seen before, each once, in the order of first appearance. -/
def firsts (seen : List String) : List String → List String
  | [] => []
  | x :: xs => if x ∈ seen then firsts seen xs else x :: firsts (seen ++ [x]) xs

def declares : Unfolding → Option (String × Decl)
  | .node i (.assignment name (some d) _ _ _) _ _ => some (name, .local i (d = .constant))
  | _ => none

def declared (us : List Unfolding) : List (String × Decl) := us.filterMap declares

/-- The declaration of a statement, unless its name was declared in the block before. -/
def accepted (seen : List String) : Unfolding → List ElementId
  | .node i (.assignment name (some _) _ _ _) _ _ => if name ∈ seen then [] else [i]
  | _ => []

mutual

/-- The declarations below an element that count, in order; those of closures are their own. -/
def locals : Unfolding → List ElementId
  | .node _ (.function ..) _ _ => []
  | .node _ (.block _) _ us => localsIn [] us
  | .node _ _ _ us => localsAll us

def localsAll : List Unfolding → List ElementId
  | [] => []
  | u :: us => locals u ++ localsAll us

def localsIn (seen : List String) : List Unfolding → List ElementId
  | [] => []
  | u :: us => locals u ++ accepted seen u ++ localsIn (seen ++ (declared [u]).map Prod.fst) us

end

/-! ### Layers -/

/-- A function around a place. -/
structure Layer where
  /-- The names that the function takes from the functions around it. -/
  captures : List String
  /-- The slots of the captures, in the frame in which the function is created. -/
  bound : List Binding
  params : List String
  /-- The declarations of the function, in order. -/
  locals : List ElementId
  /-- What the open blocks have declared so far, innermost block first. -/
  scopes : List (List (String × Decl)) := []

namespace Layer

def ofBody (captures : List String) (bound : List Binding) (params : List String)
    (body : Unfolding) : Layer :=
  { captures, bound, params, locals := Scoping.locals body }

/-- A block has been opened, and these statements of it have been passed. -/
def opened (l : Layer) (before : List Unfolding) : Layer :=
  { l with scopes := declared before :: l.scopes }

def find? (l : Layer) (x : String) : Option Decl :=
  (l.scopes.findSome? (·.lookup x)).or (((firsts [] l.params).idxOf? x).map .parameter)

/-- The slot of a declaration: captures come first, then parameters, then locals. -/
def slot (l : Layer) : Decl → Nat
  | .parameter index => l.captures.length + index
  | .local element _ => l.captures.length + (firsts [] l.params).length + l.locals.idxOf element

end Layer

/-- The kinds below which a name may mean something else than beside them. -/
def changesScope : Kind → Bool
  | .module .. | .function .. | .block .. | .closure .. => true
  | _ => false

/-- An element of a module, with the functions around it, innermost first. -/
inductive At (root : Unfolding) : List Layer → Unfolding → Prop
  | function {i j b m name ids o o' us params captures lifted body} : root = .node i (.module m ids) o us →
      .node j (.function name params b lifted captures) o' [body] ∈ us →
      At root [.ofBody captures [] params body] body
  | closure {env i j f b name o o' params captures bound lifted body} :
      At root env (.node i (.closure f bound) o
        [.node j (.function name params b lifted captures) o' [body]]) →
      At root (.ofBody captures bound params body :: env) body
  | statement {l env i ids o before after u} :
      At root (l :: env) (.node i (.block ids) o (before ++ u :: after)) →
      At root (l.opened before :: env) u
  | part {env i k o us u} : At root env (.node i k o us) → changesScope k = false → u ∈ us → At root env u

def Visible (env : List Layer) (x : String) : Prop := ∃ l ∈ env, (l.find? x).isSome = true

/-- A slot of the innermost frame holds what a name means. -/
inductive Access : List Layer → String → Binding → Prop
  | own {l env x d b} : l.find? x = some d → b.slot.toNat = l.slot d → b.kind = d.kind → Access (l :: env) x b
  | captured {l env x b b'} : l.find? x = none → l.captures[b.slot.toNat]? = some x → b.kind = .captured →
      l.bound[b.slot.toNat]? = some b' → Access env x b' → Access (l :: env) x b

/-! ### What resolution owes -/

section
variable (functions : List String) (found : List Diagnostic) (l : Layer) (env : List Layer)

/-- A reference is bound to what its name means, or the name is reported. -/
def ReferenceResolved (o : Origin) (x : String) (binding : Option Binding) : Prop :=
  (Visible (l :: env) x → ∃ b, binding = some b ∧ Access (l :: env) x b) ∧
    (¬ Visible (l :: env) x → binding = none ∧ ⟨.undeclaredVariable x, o⟩ ∈ found)

/-- An assignment is bound if its name means something in the same function that it may write. -/
def AssignmentResolved (o : Origin) (x : String) (initializer : Bool) (binding : Option Binding) :
    Prop :=
  match l.find? x with
  | some d =>
    if d.isConstant && !initializer then binding = none ∧ ⟨.constantTarget x, o⟩ ∈ found
    else ∃ b, binding = some b ∧ Access (l :: env) x b
  | none =>
    binding = none ∧ (Visible env x → ⟨.capturedTarget x, o⟩ ∈ found) ∧
      (¬ Visible env x → ⟨.undeclaredTarget x, o⟩ ∈ found)

/-- The first declaration of a name in a block is bound to its slot; a second one is reported. -/
def DeclarationResolved (i : ElementId) (o : Origin) (x : String) (binding : Option Binding) : Prop :=
  if x ∈ (l.scopes.headD []).map Prod.fst then binding = none ∧ ⟨.repeatedVariable x, o⟩ ∈ found
  else ∃ b, binding = some b ∧ b.slot.toNat = l.slot (.local i true) ∧ b.kind = .local

/-- A call goes to what its name means, else to a function of the module, else to a builtin; else its
name is reported. -/
def CallResolved (o : Origin) (x : String) (target : Option CallTarget) : Prop :=
  (Visible (l :: env) x → ∃ b, target = some (.slot b) ∧ Access (l :: env) x b) ∧
    (¬ Visible (l :: env) x →
      if x ∈ functions then target = some .module
      else if x ∈ builtins then target = some .builtin
      else target = none ∧ ⟨.unknownFunction x, o⟩ ∈ found)

def Resolved : Unfolding → Prop
  | .node _ (.reference x binding) o _ => ReferenceResolved found l env o x binding
  | .node i (.assignment x (some _) _ binding _) o _ => DeclarationResolved found l i o x binding
  | .node _ (.assignment x none _ binding initializer) o _ =>
    AssignmentResolved found l env o x initializer binding
  | .node _ (.invocation x _ target) o _ => CallResolved functions found l env o x target
  | _ => True

end

def Roomy (found : List Diagnostic) : Prop := ∀ d ∈ found, ∀ f x, d.problem ≠ .frameFull f x

def functionName? : Unfolding → Option String
  | .node _ (.function name _ _ _ _) _ _ => some name
  | _ => none

def functionNames : Unfolding → List String
  | .node _ _ _ us => us.filterMap functionName?

/-! ### Names and declarations -/

variable {seen : List String} {i e : ElementId} {k : Kind} {o : Origin} {us : List Unfolding} {u : Unfolding}

theorem mem_firsts {xs : List String} {x : String} : x ∈ firsts seen xs ↔ x ∈ xs ∧ x ∉ seen := by
  induction xs generalizing seen with
  | nil => simp [firsts]
  | cons y ys ih =>
    rw [firsts]
    split_ifs with hy
    · rw [ih, mem_cons]
      constructor
      · rintro ⟨hx, hs⟩
        exact ⟨.inr hx, hs⟩
      · rintro ⟨rfl | hx, hs⟩
        · exact absurd hy hs
        · exact ⟨hx, hs⟩
    · rw [mem_cons, mem_cons, ih, mem_append, mem_singleton, not_or]
      constructor
      · rintro (rfl | ⟨hx, hs, -⟩)
        · exact ⟨.inl rfl, hy⟩
        · exact ⟨.inr hx, hs⟩
      · rintro ⟨rfl | hx, hs⟩
        · exact .inl rfl
        · by_cases hxy : x = y
          · exact .inl hxy
          · exact .inr ⟨hx, hs, hxy⟩

theorem declared_cons (u : Unfolding) (us : List Unfolding) :
    declared (u :: us) = declared [u] ++ declared us := by
  simp [declared, filterMap_cons]
  cases declares u <;> rfl

theorem localsAll_eq_flatMap (us : List Unfolding) : localsAll us = us.flatMap locals :=
  eq_flatMap (by rw [localsAll]) (fun _ _ => by rw [localsAll]) us

theorem localsIn_append (seen : List String) (us vs : List Unfolding) :
    localsIn seen (us ++ vs) = localsIn seen us ++ localsIn (seen ++ (declared us).map Prod.fst) vs := by
  induction us generalizing seen with
  | nil => simp [localsIn, declared]
  | cons u us ih =>
    rw [cons_append, localsIn, ih, localsIn, declared_cons u us, map_append]
    simp only [append_assoc]

theorem declares_of_fits (h : Fits (.node i k o us)) (hk : ∀ ids, k ≠ .block ids) (hu : u ∈ us) :
    declares u = none := by
  obtain ⟨i', k', o', vs⟩ := u
  obtain ⟨⟨role, c⟩, hs, -, ha⟩ := h.slot_of_mem hu
  cases k' with
  | assignment name d value binding initializer =>
    cases role <;> cases ha
    obtain ⟨ids, rfl⟩ := Kind.block_of_statement hs
    exact absurd rfl (hk ids)
  | _ => rfl

theorem declared_of_fits (h : Fits (.node i k o us)) (hk : ∀ ids, k ≠ .block ids) :
    declared us = [] := by
  rw [declared, filterMap_eq_nil_iff]
  exact fun u hu => declares_of_fits h hk hu

theorem accepted_eq (seen : List String) (u : Unfolding) :
    accepted seen u = [] ∨ accepted seen u = [u.id] := by
  obtain ⟨i, k, o, us⟩ := u
  cases k with
  | assignment x d value b initializer =>
    cases d with
    | none => exact .inl rfl
    | some d =>
      rw [accepted]
      split_ifs
      · exact .inl rfl
      · exact .inr rfl
  | _ => exact .inl rfl

theorem mem_accepted (h : e ∈ accepted seen u) : e = u.id := by
  rcases accepted_eq seen u with heq | heq
  · rw [heq] at h
    cases h
  · rw [heq] at h
    exact mem_singleton.mp h

theorem mem_localsIn_of (h : ∀ u ∈ us, ∀ e ∈ locals u, e ∈ u.ids) (he : e ∈ localsIn seen us) :
    e ∈ us.flatMap Unfolding.ids := by
  induction us generalizing seen with
  | nil =>
    rw [localsIn] at he
    exact he
  | cons u us ih =>
    rw [localsIn, mem_append, mem_append] at he
    rw [flatMap_cons, mem_append]
    rcases he with (he | he) | he
    · exact .inl (h u (.head _) e he)
    · rw [mem_accepted he]
      exact .inl u.id_mem_ids
    · exact .inr (ih (fun v hv => h v (.tail _ hv)) he)

theorem mem_locals (h : e ∈ locals (.node i k o us)) : e ∈ us.flatMap Unfolding.ids := by
  have key : ∀ u : Unfolding, ∀ e ∈ locals u, e ∈ u.children.flatMap Unfolding.ids := by
    intro u
    induction u with
    | node i k o us ih =>
      have hbelow : ∀ u ∈ us, ∀ e ∈ locals u, e ∈ u.ids := by
        rintro ⟨j, k, o, vs⟩ hu e he
        rw [ids_node]
        exact .tail _ (ih _ hu e he)
      have hall : ∀ e ∈ localsAll us, e ∈ us.flatMap Unfolding.ids := by
        intro e he
        rw [localsAll_eq_flatMap] at he
        obtain ⟨u, hu, he⟩ := mem_flatMap.mp he
        exact mem_flatMap.mpr ⟨u, hu, hbelow u hu e he⟩
      intro e he
      cases k <;> simp only [locals] at he <;>
        first | exact hall e he | exact mem_localsIn_of hbelow he | cases he
  exact key _ e h

theorem mem_ids_of_mem_locals (h : e ∈ locals u) : e ∈ u.ids := by
  obtain ⟨i, k, o, us⟩ := u
  rw [ids_node]
  exact .tail _ (mem_locals h)

theorem nodup_locals (hu : u.ids.Nodup) : (locals u).Nodup := by
  induction u with
  | node i k o us ih =>
    rw [ids_node, nodup_cons] at hu
    obtain ⟨-, hus⟩ := hu
    have hin : ∀ seen, (localsIn seen us).Nodup := by
      induction us with
      | nil =>
        intro seen
        rw [localsIn]
        exact nodup_nil
      | cons u us ihus =>
        intro seen
        rw [flatMap_cons, nodup_append'] at hus
        obtain ⟨hu, hus, hdisjoint⟩ := hus
        rw [localsIn, nodup_append', nodup_append']
        refine ⟨⟨ih u (.head _) hu, ?_, ?_⟩, ?_, ?_⟩
        · rcases accepted_eq seen u with heq | heq <;> simp [heq]
        · obtain ⟨j, k, o, vs⟩ := u
          intro e he he'
          rw [ids_node, nodup_cons] at hu
          have heq : e = j := mem_accepted he'
          exact hu.1 (heq ▸ mem_locals he)
        · exact ihus (fun v hv => ih v (.tail _ hv)) hus _
        · intro e he he'
          refine hdisjoint ?_ (mem_localsIn_of (fun v _ _ hm => mem_ids_of_mem_locals hm) he')
          rcases mem_append.mp he with he | he
          · exact mem_ids_of_mem_locals he
          · rw [mem_accepted he]
            exact u.id_mem_ids
    have hall : (localsAll us).Nodup := by
      rw [localsAll_eq_flatMap]
      rw [nodup_flatMap] at hus ⊢
      refine ⟨fun u hu => ih u hu (hus.1 u hu), hus.2.imp fun hdisjoint e he he' => ?_⟩
      exact hdisjoint (mem_ids_of_mem_locals he) (mem_ids_of_mem_locals he')
    cases k <;> simp only [locals] <;> first | exact hall | exact hin _ | exact nodup_nil

/-! ### Marks do not change declarations -/

section
variable (as : List (ElementId × Mark))

theorem declares_marked (u : Unfolding) : declares (u.marked as) = declares u := by
  obtain ⟨i, k, o, us⟩ := u
  rw [marked_node, rekind_def]
  cases k with
  | assignment x d value b initializer => cases d <;> rfl
  | _ => rfl

theorem declared_map_marked (us : List Unfolding) :
    declared (us.map (·.marked as)) = declared us := by
  rw [declared, filterMap_map]
  exact filterMap_congr fun u _ => declares_marked as u

theorem accepted_marked (seen : List String) (u : Unfolding) :
    accepted seen (u.marked as) = accepted seen u := by
  obtain ⟨i, k, o, us⟩ := u
  rw [marked_node, rekind_def]
  cases k with
  | assignment x d value b initializer => cases d <;> rfl
  | _ => rfl

theorem functionNames_marked (u : Unfolding) : functionNames (u.marked as) = functionNames u := by
  obtain ⟨i, k, o, us⟩ := u
  rw [marked_node, functionNames, functionNames, filterMap_map]
  refine filterMap_congr ?_
  rintro ⟨j, k, o, vs⟩ -
  rw [Function.comp_apply, marked_node, rekind_def]
  cases k <;> rfl

theorem changesScope_rekind (i : ElementId) (k : Kind) :
    changesScope (rekind i as k) = changesScope k := by
  rw [rekind_def]
  cases k <;> rfl

theorem locals_marked (u : Unfolding) : locals (u.marked as) = locals u := by
  induction u with
  | node i k o us ih =>
    have hall : localsAll (us.map (·.marked as)) = localsAll us := by
      rw [localsAll_eq_flatMap, localsAll_eq_flatMap, flatMap_map]
      exact flatMap_congr ih
    have hin : ∀ seen, localsIn seen (us.map (·.marked as)) = localsIn seen us := by
      clear hall
      induction us with
      | nil => exact fun _ => rfl
      | cons u us ihus =>
        intro seen
        have hdeclared := declared_map_marked as [u]
        rw [map_singleton] at hdeclared
        rw [map_cons, localsIn, localsIn, ih u (.head _), accepted_marked,
          hdeclared, ihus fun v hv => ih v (.tail _ hv)]
    rw [marked_node, rekind_def]
    cases k <;> simp only [locals, hall, hin]

end

def Layer.names (l : Layer) : List (List String) := l.scopes.map (·.map Prod.fst) ++ [l.params]

theorem isSome_lookup (s : List (String × Decl)) (x : String) :
    (s.lookup x).isSome = (s.map Prod.fst).contains x := by
  induction s with
  | nil => rfl
  | cons p s ih =>
    obtain ⟨y, d⟩ := p
    rw [lookup_cons, map_cons, contains_cons]
    cases x == y with
    | true => rfl
    | false => simpa using ih

theorem Layer.isSome_find? (l : Layer) (x : String) :
    (l.find? x).isSome = l.names.any (·.contains x) := by
  have hparam : (((firsts [] l.params).idxOf? x).map Decl.parameter).isSome = l.params.contains x := by
    rw [Option.isSome_map, Bool.eq_iff_iff, isSome_idxOf?, mem_firsts]
    simp
  unfold find? names
  rw [Option.isSome_or, hparam, isSome_findSome?, any_append, any_map]
  simp [isSome_lookup, Function.comp_def]

end Clausal.Scoping
