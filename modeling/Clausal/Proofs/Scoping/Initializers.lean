import Clausal.Proofs.Scoping.Lexical

/-! # Names in the value of a statement

The value of a statement is an expression.  It opens no block outside of its closures, so wherever something
stands in it, the functions around are those around the statement, below the closures of the value that it
stands in (`exists_at_inline`). -/

namespace Clausal.Scoping

open List

variable {root u v w : Unfolding} {l : Layer} {env inner : List Layer} {x : String} {k : Kind}
  {us : List Unfolding} {i : ElementId} {o : Origin}

/-! ### Places in an expression -/

theorem At.fits (h : At root env u) (hroot : root.Fits) : u.Fits := by
  induction h with
  | function heq hf =>
    subst heq
    exact (hroot.child _ hf).child _ (.head _)
  | closure _ ih => exact (ih.child _ (.head _)).child _ (.head _)
  | statement _ ih => exact ih.child _ (by simp)
  | part _ _ hu ih => exact ih.child _ hu

/-- The kinds of the elements of an expression, outside of its closures. -/
def isInline : Kind → Bool
  | .whenClause _ _ .value => true
  | k => k.isExpression

theorem isInline_of_isExpression (h : k.isExpression = true) : isInline k = true := by
  cases k <;> first | rfl | cases h

theorem closure_of_isInline (h : isInline k = true) (hscope : changesScope k = true) :
    ∃ f bound, k = .closure f bound := by
  cases k with
  | closure f bound => exact ⟨f, bound, rfl⟩
  | module _ _ => cases h
  | function _ _ _ _ _ => cases h
  | block _ => cases h
  | _ => cases hscope

theorem isInline_of_fits (h : Unfolding.Fits (.node i k o us))
    (hk : isInline k = true) (hscope : changesScope k = false) (hu : u ∈ us) : isInline u.kind = true := by
  obtain ⟨⟨role, c⟩, hs, -, hrole⟩ := h.slot_of_mem hu
  have hinline : role = .expression ∨ role = .clause .value := by
    cases k with
    | whenClause condition action arm =>
      cases arm with
      | value =>
        simp only [Kind.slots, Arm.actionRole, mem_cons, not_mem_nil, or_false, Prod.mk.injEq] at hs
        rcases hs with ⟨rfl, -⟩ | ⟨rfl, -⟩ <;> exact .inl rfl
      | statement => cases hk
    | matchOf clauses otherwise =>
      simp only [Kind.slots, mem_append, mem_map, mem_singleton, Prod.mk.injEq] at hs
      rcases hs with ⟨_, -, rfl, -⟩ | ⟨rfl, -⟩
      · exact .inr rfl
      · exact .inl rfl
    | closure _ _ => cases hscope
    | constant _ => cases hs
    | reference _ _ => cases hs
    | binary _ _ _ =>
      simp only [Kind.slots, mem_cons, not_mem_nil, or_false, Prod.mk.injEq] at hs
      rcases hs with ⟨rfl, -⟩ | ⟨rfl, -⟩ <;> exact .inl rfl
    | unary _ _ =>
      simp only [Kind.slots, mem_singleton, Prod.mk.injEq] at hs
      exact .inl hs.1
    | invocation _ _ _ =>
      simp only [Kind.slots, mem_map, Prod.mk.injEq] at hs
      obtain ⟨_, -, rfl, -⟩ := hs
      exact .inl rfl
    | _ => cases hk
  generalize u.kind = k' at hrole
  rcases hinline with rfl | rfl
  · cases k' <;> first | rfl | cases hrole
  · cases k' with
    | whenClause _ _ arm => cases arm <;> first | rfl | cases hrole
    | _ => cases hrole

/-- Everything in an expression, but the functions of closures, has a place in which the functions around
the expression are below closures of the expression.  Without such closures it is no statement. -/
theorem exists_at_inline (hu : u.Fits) (hinline : isInline u.kind = true) (h : At root env u)
    (hv : v.Within u) (hk : isPlaced v.kind = true) :
    ∃ inner, At root (inner ++ env) v ∧ (inner = [] → isInline v.kind = true) := by
  induction u with
  | node i k o us ih =>
    cases hv with
    | here => exact ⟨[], h, fun _ => hinline⟩
    | @child _ _ _ _ u hm hv =>
      cases hscope : changesScope k with
      | false =>
        exact ih u hm (hu.child u hm) (isInline_of_fits hu hinline hscope hm) (h.part hscope hm) hv
      | true =>
        obtain ⟨f, bound, rfl⟩ := closure_of_isInline hinline hscope
        obtain ⟨fn, rfl, hfn, hfunction⟩ := hu.one rfl
        obtain rfl := mem_singleton.mp hm
        obtain ⟨j, k, o', vs⟩ := u
        cases k <;> cases hfunction
        obtain ⟨body, rfl, hbody, hblock⟩ := hfn.one rfl
        cases hv with
        | here => cases hk
        | child hm' hv =>
          obtain rfl := mem_singleton.mp hm'
          obtain ⟨l, inner, hat⟩ :=
            exists_at_of_within hbody (isPlaced_of_accepts hblock nofun) h.closure hv hk
          exact ⟨l :: inner, hat, nofun⟩

/-! ### Uses of a name -/

theorem visible_append (hinner : ∀ m ∈ inner, m.find? x = none) :
    Visible (inner ++ env) x ↔ Visible env x := by
  constructor
  · rintro ⟨m, hm, hx⟩
    rcases mem_append.mp hm with hm | hm
    · rw [hinner m hm] at hx
      cases hx
    · exact ⟨m, hm, hx⟩
  · rintro ⟨m, hm, hx⟩
    exact ⟨m, mem_append_right _ hm, hx⟩

section
variable (functions : List String) (found : List Diagnostic) (inner env : List Layer) (x : String)

/-- What name resolution owes to a use of a name below functions `inner` that do not declare it: it means
what it means in the functions `env` around these, whose variables cannot be assigned to. -/
def UseResolved : Unfolding → Prop
  | .node _ (.reference y binding) o _ => y = x →
    (Visible env x → ∃ b, binding = some b ∧ Access (inner ++ env) x b) ∧
      (¬ Visible env x → binding = none ∧ ⟨.undeclaredVariable x, o⟩ ∈ found)
  | .node _ (.invocation y _ target) o _ => y = x →
    (Visible env x → ∃ b, target = some (.slot b) ∧ Access (inner ++ env) x b) ∧
      (¬ Visible env x →
        if x ∈ functions then target = some .module
        else if x ∈ builtins then target = some .builtin
        else target = none ∧ ⟨.unknownFunction x, o⟩ ∈ found)
  | .node _ (.assignment y none _ binding _) o _ => y = x →
    binding = none ∧ (Visible env x → ⟨.capturedTarget x, o⟩ ∈ found) ∧
      (¬ Visible env x → ⟨.undeclaredTarget x, o⟩ ∈ found)
  | _ => True

end

theorem Resolved.use {functions : List String} {found : List Diagnostic} {rest : List Layer}
    (h : Resolved functions found l rest w) (heq : inner ++ env = l :: rest)
    (hinner : ∀ m ∈ inner, m.find? x = none) (hw : inner = [] → isInline w.kind = true) :
    UseResolved functions found inner env x w := by
  have hvisible : Visible (inner ++ env) x ↔ Visible env x := visible_append hinner
  rw [heq] at hvisible
  obtain ⟨i, k, o, us⟩ := w
  cases k with
  | reference | invocation =>
    rintro rfl
    rw [← hvisible, heq]
    exact h
  | assignment y d value binding initializer =>
    cases d with
    | some d => trivial
    | none =>
      rintro rfl
      -- a statement stands in a closure, so the innermost function is one of those below
      cases inner with
      | nil => cases hw rfl
      | cons m inner =>
        obtain ⟨rfl, rfl⟩ := List.cons.inj heq
        have hassigned : AssignmentResolved found m (inner ++ env) o y initializer binding := h
        rw [AssignmentResolved, hinner m (.head _)] at hassigned
        rw [← visible_append fun m hm => hinner m (.tail _ hm)]
        exact hassigned
  | _ => trivial

/-! ### Declarations around a place -/

theorem declares_eq_local {d : Decl} (h : declares u = some (x, d)) :
    ∃ constant, d = .local u.id constant := by
  obtain ⟨i, k, o, us⟩ := u
  cases k with
  | assignment y d value b initializer =>
    cases d with
    | some d =>
      cases h
      exact ⟨_, rfl⟩
    | none => cases h
  | _ => cases h

theorem Layer.mem_scopes_of_find? {constant : Bool}
    (h : l.find? x = some (.local i constant)) : ∃ s ∈ l.scopes, (x, Decl.local i constant) ∈ s := by
  rw [find?, Option.or_eq_some_iff] at h
  rcases h with h | ⟨-, h⟩
  · obtain ⟨s, hs, h⟩ := exists_of_findSome?_eq_some h
    obtain ⟨_, _, rfl, -⟩ := lookup_eq_some_iff.mp h
    exact ⟨_, hs, by simp⟩
  · obtain ⟨_, -, h⟩ := Option.map_eq_some_iff.mp h
    cases h

/-- What blocks have declared in functions are variables that lie outside of an unfolding. -/
def Elsewhere (env : List Layer) (u : Unfolding) : Prop :=
  ∀ l ∈ env, ∀ s ∈ l.scopes, ∀ y d, (y, d) ∈ s → ∃ i constant, d = .local i constant ∧ i ∉ u.ids

theorem Elsewhere.child (h : Elsewhere env (.node i k o us)) (hu : u ∈ us) : Elsewhere env u := by
  intro l hl s hs y d hmem
  obtain ⟨j, constant, rfl, hj⟩ := h l hl s hs y d hmem
  refine ⟨j, constant, rfl, fun hju => hj ?_⟩
  rw [Unfolding.ids_node]
  exact .tail _ (mem_flatMap.mpr ⟨u, hu, hju⟩)

theorem Elsewhere.ofBody (h : Elsewhere env u) (captures : List String) (bound : List Binding)
    (params : List String) (body : Unfolding) :
    Elsewhere (.ofBody captures bound params body :: env) u := by
  intro l hl
  rcases mem_cons.mp hl with rfl | hl
  · exact nofun
  · exact h l hl

theorem Elsewhere.opened {before : List Unfolding} (h : Elsewhere (l :: env) u)
    (hbefore : ∀ v ∈ before, v.id ∉ u.ids) : Elsewhere (l.opened before :: env) u := by
  intro m hm s hs y d hmem
  rcases mem_cons.mp hm with rfl | hm
  · rcases mem_cons.mp hs with rfl | hs
    · obtain ⟨v, hv, hdeclares⟩ := mem_filterMap.mp hmem
      obtain ⟨constant, rfl⟩ := declares_eq_local hdeclares
      exact ⟨v.id, constant, rfl, hbefore v hv⟩
    · exact h l (.head _) s hs y d hmem
  · exact h m (.tail _ hm) s hs y d hmem

theorem nodup_child (h : (Unfolding.node i k o us).ids.Nodup) (hu : u ∈ us) : u.ids.Nodup := by
  rw [Unfolding.ids_node, nodup_cons, nodup_flatMap] at h
  exact h.2.1 u hu

theorem At.elsewhere (h : At root env u) (hroot : root.ids.Nodup) : u.ids.Nodup ∧ Elsewhere env u := by
  induction h with
  | function heq hf =>
    subst heq
    refine ⟨nodup_child (nodup_child hroot hf) (.head _), ?_⟩
    exact Elsewhere.ofBody (forall_mem_nil _) _ _ _ _
  | closure _ ih =>
    obtain ⟨hnodup, helse⟩ := ih
    refine ⟨nodup_child (nodup_child hnodup (.head _)) (.head _), ?_⟩
    exact ((helse.child (.head _)).child (.head _)).ofBody _ _ _ _
  | @statement l env i ids o before after u _ ih =>
    obtain ⟨hnodup, helse⟩ := ih
    have hu : u ∈ before ++ u :: after := by simp
    refine ⟨nodup_child hnodup hu, (helse.child hu).opened fun v hv hmem => ?_⟩
    rw [Unfolding.ids_node, nodup_cons, flatMap_append, nodup_append'] at hnodup
    refine hnodup.2.2.2 (mem_flatMap.mpr ⟨v, hv, v.id_mem_ids⟩) ?_
    exact mem_flatMap.mpr ⟨u, .head _, hmem⟩
  | part _ _ hu ih => exact ⟨nodup_child ih.1 hu, ih.2.child hu⟩

theorem At.find?_ne_self (h : At root env u) (hroot : root.ids.Nodup) (hl : l ∈ env) (x : String)
    (constant : Bool) : l.find? x ≠ some (.local u.id constant) := by
  intro hfind
  obtain ⟨s, hs, hmem⟩ := Layer.mem_scopes_of_find? hfind
  obtain ⟨_, _, ⟨⟩, helse⟩ := (h.elsewhere hroot).2 l hl s hs x _ hmem
  exact helse u.id_mem_ids

end Clausal.Scoping
