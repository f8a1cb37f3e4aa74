import Clausal.Proofs.Compile.CaseInvariance
import Clausal.Proofs.Scoping.Captures
import Clausal.Proofs.Scoping.Resolution
import Clausal.Proofs.Scoping.Room

/-! # Name resolution is lexical scoping

The two walks over a module are put together. -/

namespace Clausal

open Scoping List Option Unfolding Layer

/-! ### What a frame holds -/

namespace Scoping

variable {l : Layer} {env : List Layer} {x : String} {d : Decl}

/-- The captures of a function hold what their names mean around it. -/
def Fed (l : Layer) (env : List Layer) : Prop :=
  ∀ (n : Nat) (x : String), l.captures[n]? = some x → ∃ b, l.bound[n]? = some b ∧ Access env x b

theorem Layer.meaning_of_find? (h : l.find? x = some d) : l.meaning x = some (l.symbol d) := by
  rw [meaning, h, map_some, some_or]

theorem Layer.meaning_of_find?_eq_none (h : l.find? x = none) : l.meaning x = l.captured x := by
  rw [meaning, h, map_none, none_or]

theorem Layer.isSome_captured : (l.captured x).isSome = true ↔ x ∈ l.captures := by
  rw [captured, isSome_map, isSome_idxOf?]

theorem isSome_meaning_iff (hc : Captured l env)
    (hneeds : l.find? x = none → Visible env x → x ∈ l.captures) :
    (l.meaning x).isSome = true ↔ Visible (l :: env) x := by
  cases hfind : l.find? x with
  | some d =>
    rw [meaning_of_find? hfind]
    refine ⟨fun _ => ⟨l, .head _, ?_⟩, fun _ => rfl⟩
    rw [hfind]
    rfl
  | none =>
    rw [meaning_of_find?_eq_none hfind, isSome_captured]
    constructor
    · intro hx
      obtain ⟨l', hl', hx'⟩ := hc.visible x hx
      exact ⟨l', .tail _ hl', hx'⟩
    · rintro ⟨l', hl', hx'⟩
      rcases mem_cons.mp hl' with rfl | hl'
      · rw [hfind] at hx'
        cases hx'
      · exact hneeds hfind ⟨l', hl', hx'⟩

theorem toNat_toUInt16 {n : Nat} (h : n < frameLimit) : n.toUInt16.toNat = n := by
  have hmod : n.toUInt16.toNat = n % 2 ^ 16 := rfl
  rw [hmod]
  exact Nat.mod_eq_of_lt h

variable {f : Frame} {done : List ElementId}

theorem slot_lt (h : f.Agrees l done) (hd : l.find? x = some d) : l.slot d < frameLimit := by
  refine Nat.lt_of_lt_of_le ?_ h.room
  rw [Layer.find?, or_eq_some_iff] at hd
  rcases hd with hd | ⟨-, hd⟩
  · obtain ⟨s, hs, hlookup⟩ := exists_of_findSome?_eq_some hd
    exact h.below s hs x d hlookup
  · obtain ⟨k, hk, rfl⟩ := map_eq_some_iff.mp hd
    obtain ⟨hlt, -⟩ := idxOf?_eq_some_iff.mp hk
    rw [slot, h.next]
    omega

theorem access_of_meaning (h : f.Agrees l done) (hfed : Fed l env) {s : Symbol}
    (hs : l.meaning x = some s) : Access (l :: env) x s.binding := by
  cases hfind : l.find? x with
  | some d =>
    rw [meaning_of_find? hfind] at hs
    cases hs
    exact .own hfind (toNat_toUInt16 (slot_lt h hfind)) rfl
  | none =>
    rw [meaning_of_find?_eq_none hfind, Layer.captured] at hs
    obtain ⟨n, hn, rfl⟩ := map_eq_some_iff.mp hs
    obtain ⟨hlt, hget, -⟩ := idxOf?_eq_some_iff.mp hn
    have hx : l.captures[n]? = some x := by rw [getElem?_eq_getElem hlt, hget]
    have hslot : n.toUInt16.toNat = n := by
      refine toNat_toUInt16 (Nat.lt_of_lt_of_le hlt ?_)
      have hnext := h.next
      have hroom := h.room
      omega
    obtain ⟨b, hb, hacc⟩ := hfed n x hx
    exact .captured hfind (by rw [hslot, hx]) rfl (by rw [hslot, hb]) hacc

end Scoping

/-! ### Name resolution meets every place -/

def Kind.unresolved : Kind → Bool
  | .assignment _ _ _ binding _ => binding.isNone
  | .reference _ binding => binding.isNone
  | .invocation _ _ target => target.isNone
  | _ => true

/-- An unfolding before its names are resolved. -/
structure Unfolding.Ready (u : Unfolding) : Prop where
  fits : u.Fits
  nodup : u.ids.Nodup
  unresolved : ∀ p ∈ u.preorder, p.2.unresolved = true

variable {i : ElementId} {k : Kind} {o : Origin} {us : List Unfolding}

theorem Unfolding.Ready.child (h : Ready (.node i k o us)) {u : Unfolding} (hu : u ∈ us) : u.Ready := by
  obtain ⟨hfits, hnodup, hunresolved⟩ := h
  rw [ids_node, nodup_cons, nodup_flatMap] at hnodup
  refine ⟨hfits.child u hu, hnodup.2.1 u hu, fun p hp => hunresolved p ?_⟩
  rw [preorder_node]
  exact .tail _ (mem_flatMap.mpr ⟨u, hu, hp⟩)

theorem Unfolding.Ready.kind (h : Ready (.node i k o us)) : k.unresolved = true := by
  refine h.unresolved (i, k) ?_
  rw [preorder_node]
  exact .head _

theorem getElem?_filterMap {α β : Type} {g : α → Option β} {xs : List α}
    (h : ∀ x ∈ xs, (g x).isSome = true) (n : Nat) : (xs.filterMap g)[n]? = xs[n]?.bind g := by
  induction xs generalizing n with
  | nil => rfl
  | cons x xs ih =>
    obtain ⟨y, hy⟩ := isSome_iff_exists.mp (h x (.head _))
    rw [filterMap_cons_some hy]
    cases n with
    | zero => exact hy.symm
    | succ n => exact ih (fun z hz => h z (.tail _ hz)) n

namespace Resolution

theorem latest_captures (r : Resolution) (j : ElementId) (names : List String) :
    Mark.latest Mark.captures? j r.marks names = names := by
  refine Mark.latest_eq_self ?_
  rintro ⟨i, a⟩ ha - z hz
  cases a <;> cases hz
  simp [marks] at ha

theorem contains_enterFunctions (us : List Unfolding) (r : Resolution) (x : String) :
    (r.enterFunctions us).functions.contains x = true ↔
      r.functions.contains x = true ∨ x ∈ us.filterMap functionName? := by
  induction us generalizing r with
  | nil => simp [enterFunctions]
  | cons u us ih =>
    obtain ⟨i, k, o, vs⟩ := u
    cases k with
    | function name params b lifted captures =>
      have hfunctions : ∀ known : Bool,
          (if known = true then
            ({ r with functions := r.functions.insert name params.length } : Resolution).complain o
              (.repeatedFunction name)
          else { r with functions := r.functions.insert name params.length }).functions =
            r.functions.insert name params.length := by
        rintro (_ | _) <;> rfl
      rw [enterFunctions, ih, hfunctions, Std.HashMap.contains_insert, filterMap_cons]
      simp only [functionName?, Bool.or_eq_true, beq_iff_eq, mem_cons]
      tauto
    | _ =>
      simp only [enterFunctions]
      rw [ih]
      rfl

variable {final : List (ElementId × Mark)} {found : List Diagnostic}

theorem meets_module {i j b : ElementId} {m name : String} {ids : List ElementId} {o o' : Origin}
    {params captures : List String} {lifted : Bool} {before after : List Unfolding} {body : Unfolding} (hu :
    Unfolding.Ready (.node i (.module m ids) o (before ++ .node j (.function name params b lifted captures) o'
    [body] :: after))) (hfinal : final = (visit {} (.node i (.module m ids) o (before ++ .node j (.function
    name params b lifted captures) o' [body] :: after))).marks) (hfound : found = (visit {} (.node i (.module
    m ids) o (before ++ .node j (.function name params b lifted captures) o' [body] ::
    after))).diagnostics.toList) (hroom : Roomy found) (hcaptures : captures.Nodup)
    (hparams : ∀ x ∈ captures, x ∉ params) (bound : List Binding) :
    ∃ r, Meets final found (functionNames (.node i (.module m ids) o
        (before ++ .node j (.function name params b lifted captures) o' [body] :: after))) r body
      (.ofBody captures bound params body) := by
  obtain ⟨hfits, hnodup, -⟩ := hu
  generalize hfn : Unfolding.node j (.function name params b lifted captures) o' [body] = fn at *
  have hvisit : visit {} (.node i (.module m ids) o (before ++ fn :: after)) =
      visitAll ((({} : Resolution).enterFunctions (before ++ fn :: after)).checkMain o)
        (before ++ fn :: after) := by
    simp only [visit]
  rw [hvisit] at hfinal hfound
  have hstart : ((({} : Resolution).enterFunctions (before ++ fn :: after)).checkMain o).marks = [] := by
    rw [marks_checkMain, marks_enterFunctions]
    rfl
  have hfunctions : ∀ x,
      ((({} : Resolution).enterFunctions (before ++ fn :: after)).checkMain o).functions.contains x = true ↔
        x ∈ functionNames (.node i (.module m ids) o (before ++ fn :: after)) := by
    intro x
    rw [functions_checkMain, contains_enterFunctions, functionNames]
    simp
  generalize (({} : Resolution).enterFunctions (before ++ fn :: after)).checkMain o = r at *
  have hinner := hfits.inner
  have hafter : ∀ v ∈ after, v.Inner := fun v hv => hinner v (by simp [hv])
  rw [Unfolding.ids_node, nodup_cons] at hnodup
  have hw : Window fn.ids (visitAll r before).marks (visit (visitAll r before) fn).marks final := by
    rw [visitAll_eq_foldl] at hfinal ⊢
    exact logs.child hinner hnodup.2 ⟨by simp [hstart], fun q hq => hfinal ▸ hq, fun q hq _ => hfinal ▸ hq⟩
  have hreported : ∀ d ∈ (visit (visitAll r before) fn).diagnostics, d ∈ found := by
    intro d hd
    rw [hfound, visitAll_append_cons]
    exact Array.mem_toList_iff.mpr ((later_visitAll hafter _).diagnostics d hd)
  have hids := (nodup_flatMap.mp hnodup.2).1 fn (by simp)
  subst hfn
  refine ⟨_, meets_function (hinner _ (by simp)).1 hids hw hreported hroom ?_ hcaptures hparams bound⟩
  intro x
  rw [(later_visitAll (fun v hv => hinner v (mem_append_left _ hv)) r).functions, hfunctions]

theorem meets_of_at {u : Unfolding} (hu : u.Ready) (hfinal : final = (visit {} u).marks)
    (hfound : found = (visit {} u).diagnostics.toList) (hroom : Roomy found) (hcaptured : ∀ {l env v}, At
    (u.marked final) (l :: env) v → Captured l env ∧ ∀ x ∈ Capture.needs v, l.find? x = none → Visible env x →
    x ∈ l.captures) {env : List Layer} {v : Unfolding} (h : At (u.marked final) env v) :
    ∃ l env', env = l :: env' ∧ Fed l env' ∧ ∃ v0 r, v = v0.marked final ∧ v0.Ready ∧
      Meets final found (functionNames u) r v0 l := by
  induction h with
  | @function i j b m name ids o o' us params captures lifted body hroot hmem =>
    obtain ⟨hl, -⟩ := hcaptured (.function hroot hmem)
    obtain ⟨before, after, captures0, body0, rfl, hcaptures, rfl⟩ := module_of_marked hroot hmem
    have hsame : captures0 = captures := by rw [← hcaptures, hfinal, latest_captures]
    subst hsame
    obtain ⟨r, hmeets⟩ := meets_module hu hfinal hfound hroom hl.nodup hl.params []
    refine ⟨_, [], rfl, ?_, body0, r, rfl, ?_, ?_⟩
    · intro n x hx
      obtain ⟨l, hl, -⟩ := hl.visible x (mem_of_getElem? hx)
      cases hl
    · have hfn : .node j (.function name params b lifted captures0) o' [body0] ∈
          before ++ .node j (.function name params b lifted captures0) o' [body0] :: after := by simp
      exact (hu.child hfn).child (.head _)
    · rwa [ofBody, locals_marked]
  | @closure env i j f b name o o' params captures bound lifted body h ih =>
    obtain ⟨l, env', rfl, hfed, v0, r, hv0, hready, hmeets⟩ := ih
    obtain ⟨bound0, captures0, body0, rfl, hbound, hcaptures, rfl⟩ := closure_of_marked hv0
    have hsame : captures0 = captures := by rw [← hcaptures, hfinal, latest_captures]
    subst hsame
    obtain ⟨hl, -⟩ := hcaptured (.closure h)
    obtain ⟨hcaptured', hneeds⟩ := hcaptured h
    obtain ⟨hlogged, hbelow⟩ := hmeets.closure hroom hready.fits hready.nodup hl.nodup hl.params
    obtain ⟨r', hmeets'⟩ := hbelow bound
    rw [hbound] at hlogged
    refine ⟨_, l :: env', rfl, ?_, body0, r', rfl, ?_, ?_⟩
    · intro n x hx
      have hmeaning : ∀ y ∈ captures0, (l.meaning y).isSome = true := fun y hy =>
        (isSome_meaning_iff hcaptured' (hneeds y hy)).mpr (hl.visible y hy)
      obtain ⟨s, hs⟩ := isSome_iff_exists.mp (hmeaning x (mem_of_getElem? hx))
      obtain ⟨fs, done, ⟨f, -, hagrees⟩, -⟩ := hmeets.passed
      refine ⟨s.binding, ?_, access_of_meaning hagrees hfed hs⟩
      have hget : bound[n]? = captures0[n]?.bind fun x => (l.meaning x).map Symbol.binding := by
        rw [hlogged]
        exact getElem?_filterMap (fun y hy => by rw [isSome_map, hmeaning y hy]) n
      have hx' : captures0[n]? = some x := hx
      exact hget.trans (by rw [hx', bind_some, hs, map_some])
    · exact (hready.child (.head _)).child (.head _)
    · rwa [ofBody, locals_marked]
  | @statement l env i ids o before after u' h ih =>
    obtain ⟨l', env', ⟨⟩, hfed, v0, r, hv0, hready, hmeets⟩ := ih
    obtain ⟨before0, u0, after0, rfl, rfl, rfl⟩ := block_of_marked hv0
    obtain ⟨r', hmeets'⟩ := hmeets.statement hroom hready.fits hready.nodup
    have hopened : l.opened (before0.map (·.marked final)) = l.opened before0 := by
      rw [opened, declared_map_marked, ← opened]
    rw [hopened]
    exact ⟨_, env, rfl, hfed, u0, r', rfl, hready.child (by simp), hmeets'⟩
  | @part env i k o us u' h hk hmem ih =>
    obtain ⟨l, env', rfl, hfed, v0, r, hv0, hready, hmeets⟩ := ih
    obtain ⟨k0, us0, rfl, rfl, rfl⟩ := exists_of_marked hv0
    obtain ⟨u0, hu0, rfl⟩ := List.mem_map.mp hmem
    rw [changesScope_rekind] at hk
    obtain ⟨r', hmeets'⟩ := hmeets.part hroom hready.fits hready.nodup hk hu0
    exact ⟨l, env', rfl, hfed, u0, r', rfl, hready.child hu0, hmeets'⟩

/-! ### What an element gets -/

section
variable {final : List (ElementId × Mark)} {found : List Diagnostic} {functions : List String}
  {r : Resolution} {l : Layer} {env : List Layer} {i : ElementId} {k : Kind} {o : Origin}
  {us : List Unfolding} {x : String}

theorem Meets.parts (h : Meets final found functions r (.node i k o us) l) (hroom : Roomy found)
    (hready : Unfolding.Ready (.node i k o us)) (hk : changesScope k = false) :
    ∃ fs done, Passed fs l done (visitAll r us) ∧ done ++ accepted l.seen (.node i k o us) <+: l.locals ∧
      (∀ q ∈ (visitAll r us).marks, q.1 ≠ i) ∧ (visitAll r us).functions = r.functions := by
  obtain ⟨fs, done, hpassed, hl⟩ := h.passed
  obtain ⟨hfits, hids, -⟩ := hready
  obtain ⟨hlater, -⟩ := visit_parts r hk hfits
  have hnone : declared us = [] := by
    refine declared_of_fits hfits ?_
    rintro ids rfl
    cases hk
  rw [locals_parts hk, ← localsIn_of_declared hnone l.seen, ← append_assoc] at hl
  have hparts := passed_visitAll_of (fun v hv => passed_visit (hfits.child v hv)) hfits.inner hpassed
    h.nodup ((prefix_append ..).trans hl) (fun hd => absurd hnone hd)
    (hlater.roomy (roomy_of_found hroom h.found))
  rw [hnone, l.extend_nil] at hparts
  refine ⟨fs, _, hparts, hl, ?_, (later_visitAll hfits.inner r).functions⟩
  rintro q hq rfl
  rw [Unfolding.ids_node, nodup_cons] at hids
  have hw := h.window
  rw [Unfolding.ids_node] at hw
  rw [visitAll_eq_foldl] at hq
  rcases logs.adds_foldl hfits.inner r q hq with hq | hq
  · exact hw.unmarked q hq (.head _)
  · exact hids.1 hq

variable {α : Type} {r' : Resolution}

theorem Meets.latest_eq (read : Mark → Option α) (h : Meets final found functions r (.node i k o us) l)
    {a : Mark} {y : α} (hmarks : ∀ q, q ∈ (visit r (.node i k o us)).marks ↔ q ∈ r'.marks ∨ q = (i, a))
    (hr' : ∀ q ∈ r'.marks, q.1 ≠ i) (hread : read a = some y) (z : α) : Mark.latest read i final z = y := by
  refine h.window.latest_eq read (by simp) ((hmarks _).mpr (.inr rfl)) hread ?_ z
  intro q hq hqi
  exact ((hmarks q).mp hq).resolve_left fun hq => hr' q hq hqi

/-- What is complained about is not marked. -/
theorem Meets.refused (read : Mark → Option α) (h : Meets final found functions r (.node i k o us) l) {p : Problem}
    (hvisit : visit r (.node i k o us) = r'.complain o p) (hr' : ∀ q ∈ r'.marks, q.1 ≠ i) (z : α) :
    Mark.latest read i final z = z ∧ ⟨p, o⟩ ∈ found := by
  refine ⟨h.window.latest_eq_self read (by simp) (fun q hq => hr' q ?_) z, h.found _ ?_⟩
  · rwa [hvisit, marks_complain] at hq
  · rw [hvisit]
    exact Array.mem_push_self ..

variable {b : Option Binding}

theorem Meets.reference (h : Meets final found functions r (.node i (.reference x b) o us) l)
    (hroom : Roomy found) (hready : Unfolding.Ready (.node i (.reference x b) o us)) (hc : Captured l env)
    (hneeds : l.find? x = none → Visible env x → x ∈ l.captures) (hfed : Fed l env) :
    ReferenceResolved found l env o x (Mark.latest Mark.binding? i final b) := by
  obtain ⟨fs, done, hpassed, -, hown, -⟩ := h.parts hroom hready rfl
  obtain rfl := hready.fits.none rfl
  obtain rfl : b = none := isNone_iff_eq_none.mp hready.kind
  obtain ⟨f, -, hagrees⟩ := id hpassed
  have hlookup := hpassed.lookup x
  have hvisible := isSome_meaning_iff hc hneeds
  rw [visitAll] at hlookup hown
  cases hm : l.meaning x with
  | some s =>
    have hvisit : visit r (.node i (.reference x none) o []) = r.bind i s.binding := by
      rw [visit, refer, hlookup, hm]
    rw [h.latest_eq Mark.binding? (fun q => by rw [hvisit, mem_marks_bind]) hown rfl]
    refine ⟨fun _ => ⟨s.binding, rfl, access_of_meaning hagrees hfed hm⟩, fun hnot => ?_⟩
    exact absurd (hvisible.mp (by rw [hm]; rfl)) hnot
  | none =>
    have hvisit : visit r (.node i (.reference x none) o []) = r.complain o (.undeclaredVariable x) := by
      rw [visit, refer, hlookup, hm]
    refine ⟨fun hv => ?_, fun _ => h.refused Mark.binding? hvisit hown none⟩
    rw [← hvisible, hm] at hv
    cases hv

variable {value : ElementId} {initializer : Bool}

theorem Meets.assignment
    (h : Meets final found functions r (.node i (.assignment x none value b initializer) o us) l)
    (hroom : Roomy found) (hready : Unfolding.Ready (.node i (.assignment x none value b initializer) o us))
    (hc : Captured l env) (hneeds : l.find? x = none → Visible env x → x ∈ l.captures) (hfed : Fed l env) :
    AssignmentResolved found l env o x initializer (Mark.latest Mark.binding? i final b) := by
  obtain ⟨fs, done, hpassed, -, hown, -⟩ := h.parts hroom hready rfl
  obtain rfl : b = none := isNone_iff_eq_none.mp hready.kind
  obtain ⟨f, -, hagrees⟩ := id hpassed
  have hlookup := hpassed.lookup x
  have hvisit : visit r (.node i (.assignment x none value none initializer) o us) =
      (visitAll r us).assign i o x initializer := by
    rw [visit]
  have hrefused : ∀ {p : Problem}, (visitAll r us).assign i o x initializer = (visitAll r us).complain o p →
      Mark.latest Mark.binding? i final none = none ∧ ⟨p, o⟩ ∈ found := fun hp =>
    h.refused Mark.binding? (hvisit.trans hp) hown none
  unfold AssignmentResolved
  unfold assign at hrefused hvisit
  cases hfind : l.find? x with
  | some d =>
    have hm := meaning_of_find? hfind
    have hkind : (l.symbol d).binding.kind ≠ .captured := by cases d <;> rintro ⟨⟩
    rw [hlookup, hm] at hrefused hvisit
    dsimp only at hrefused hvisit ⊢
    rw [if_neg hkind] at hrefused hvisit
    have hconstant : (l.symbol d).constant = d.isConstant := rfl
    rw [hconstant] at hrefused hvisit
    split_ifs with hd
    · exact hrefused (if_pos hd)
    · rw [if_neg hd] at hvisit
      rw [h.latest_eq Mark.binding? (fun q => by rw [hvisit, mem_marks_bind]) hown rfl]
      exact ⟨_, rfl, access_of_meaning hagrees hfed hm⟩
  | none =>
    have hm := meaning_of_find?_eq_none hfind
    rw [hlookup, hm] at hrefused
    dsimp only
    cases hcap : l.captured x with
    | some s =>
      have hx : x ∈ l.captures := isSome_captured.mp (by rw [hcap]; rfl)
      have hkind : s.binding.kind = .captured := by
        rw [Layer.captured] at hcap
        obtain ⟨n, -, rfl⟩ := map_eq_some_iff.mp hcap
        rfl
      rw [hcap] at hrefused
      dsimp only at hrefused
      obtain ⟨hnone, hmem⟩ := hrefused (if_pos hkind)
      exact ⟨hnone, fun _ => hmem, fun hnot => absurd (hc.visible x hx) hnot⟩
    | none =>
      rw [hcap] at hrefused
      obtain ⟨hnone, hmem⟩ := hrefused rfl
      refine ⟨hnone, fun hv => ?_, fun _ => hmem⟩
      have hx := isSome_captured.mpr (hneeds hfind hv)
      rw [hcap] at hx
      cases hx

theorem Meets.declaration {d : Declaration}
    (h : Meets final found functions r (.node i (.assignment x (some d) value b initializer) o us) l)
    (hroom : Roomy found)
    (hready : Unfolding.Ready (.node i (.assignment x (some d) value b initializer) o us)) :
    DeclarationResolved found l i o x (Mark.latest Mark.binding? i final b) := by
  obtain ⟨fs, done, hpassed, hl, hown, -⟩ := h.parts hroom hready rfl
  obtain rfl : b = none := isNone_iff_eq_none.mp hready.kind
  obtain ⟨f, hf, hagrees⟩ := hpassed
  have hscopes : l.scopes ≠ [] := h.block (cons_ne_nil _ _)
  have hvisit : visit r (.node i (.assignment x (some d) value none initializer) o us) =
      (visitAll r us).declareLocal i o x d := by
    rw [visit]
  rw [accepted] at hl
  unfold DeclarationResolved
  rw [← seen]
  split_ifs with hx
  · rw [declareLocal_repeated hf hagrees hscopes hx] at hvisit
    exact h.refused Mark.binding? hvisit hown none
  · rw [if_neg hx] at hl
    obtain ⟨rest, hrest⟩ := hl
    rw [append_assoc, singleton_append] at hrest
    have hi : i ∉ done := by
      have hnodup := h.nodup
      rw [← hrest, nodup_append'] at hnodup
      exact fun hi => hnodup.2.2 hi (.head _)
    obtain ⟨f', heq, hagrees'⟩ := declareLocal_new hf hagrees hscopes hx hrest.symm hi o d
      (hvisit ▸ roomy_of_found hroom h.found)
    rw [heq] at hvisit
    have hmarks : ∀ q, q ∈ (visit r (.node i (.assignment x (some d) value none initializer) o us)).marks ↔
        q ∈ (visitAll r us).marks ∨ q = (i, .binding (l.symbol (.local i (d = .constant))).binding) := by
      intro q
      rw [hvisit, mem_marks_bind]
      rfl
    rw [h.latest_eq Mark.binding? hmarks hown rfl]
    refine ⟨_, rfl, toNat_toUInt16 ?_, rfl⟩
    have hnext : f'.nextSlot =
        l.captures.length + (firsts [] l.params).length + (done ++ [i]).length := hagrees'.next
    have hle := hagrees'.room
    rw [length_append, length_singleton] at hnext
    rw [slot, ← hrest, idxOf_append_of_notMem hi, idxOf_cons_self]
    omega

theorem Meets.invocation {arguments : List ElementId} {target : Option CallTarget}
    (h : Meets final found functions r (.node i (.invocation x arguments target) o us) l)
    (hroom : Roomy found) (hready : Unfolding.Ready (.node i (.invocation x arguments target) o us))
    (hc : Captured l env) (hneeds : l.find? x = none → Visible env x → x ∈ l.captures)
    (hfed : Fed l env) :
    CallResolved functions found l env o x (Mark.latest Mark.target? i final target) := by
  obtain ⟨fs, done, hpassed, -, hown, hfunctions⟩ := h.parts hroom hready rfl
  obtain rfl : target = none := isNone_iff_eq_none.mp hready.kind
  obtain ⟨f, -, hagrees⟩ := id hpassed
  have hlookup := hpassed.lookup x
  have hvisible := isSome_meaning_iff hc hneeds
  have hvisit : visit r (.node i (.invocation x arguments none) o us) =
      (visitAll r us).call i o x arguments.length := by
    rw [visit]
  unfold call at hvisit
  rw [hlookup] at hvisit
  cases hm : l.meaning x with
  | some s =>
    rw [hm] at hvisit
    dsimp only at hvisit
    rw [h.latest_eq Mark.target? (fun q => by rw [hvisit, mem_marks_target]) hown rfl]
    refine ⟨fun _ => ⟨s.binding, rfl, access_of_meaning hagrees hfed hm⟩, fun hnot => ?_⟩
    exact absurd (hvisible.mp (by rw [hm]; rfl)) hnot
  | none =>
    rw [hm, hfunctions] at hvisit
    dsimp only at hvisit
    refine ⟨fun hv => ?_, fun _ => ?_⟩
    · rw [← hvisible, hm] at hv
      cases hv
    · have hknown := h.functions x
      rw [Std.HashMap.contains_eq_isSome_getElem?] at hknown
      split_ifs with hx hb
      · obtain ⟨expected, he⟩ := isSome_iff_exists.mp (hknown.mpr hx)
        rw [he] at hvisit
        dsimp only at hvisit
        have hmarks : ∀ q, q ∈ (visit r (.node i (.invocation x arguments none) o us)).marks ↔
            q ∈ (visitAll r us).marks ∨ q = (i, .target .module) := by
          intro q
          rw [hvisit, mem_marks_target]
          split_ifs
          · rfl
          · rw [marks_complain]
        exact h.latest_eq Mark.target? hmarks hown rfl none
      · rw [not_isSome_iff_eq_none.mp fun hs => hx (hknown.mp hs)] at hvisit
        dsimp only at hvisit
        rw [if_pos (contains_iff_mem.mpr hb)] at hvisit
        exact h.latest_eq Mark.target? (fun q => by rw [hvisit, mem_marks_target]) hown rfl none
      · rw [not_isSome_iff_eq_none.mp fun hs => hx (hknown.mp hs)] at hvisit
        dsimp only at hvisit
        rw [if_neg fun hs => hb (contains_iff_mem.mp hs)] at hvisit
        exact h.refused Mark.target? hvisit hown none

theorem Meets.resolved {v : Unfolding} (h : Meets final found functions r v l) (hroom : Roomy found)
    (hready : v.Ready) (hc : Captured l env)
    (hneeds : ∀ x ∈ Capture.needs (v.marked final), l.find? x = none → Visible env x → x ∈ l.captures)
    (hfed : Fed l env) : Resolved functions found l env (v.marked final) := by
  obtain ⟨i, k, o, us⟩ := v
  rw [Unfolding.marked_node, Unfolding.rekind_def] at hneeds ⊢
  cases k with
  | reference x b => exact h.reference hroom hready hc (hneeds x (.head _)) hfed
  | assignment x d value b initializer =>
    cases d with
    | none => exact h.assignment hroom hready hc (hneeds x (.head _)) hfed
    | some d => exact h.declaration hroom hready
  | invocation x arguments target =>
    exact h.invocation hroom hready hc (hneeds x (.head _)) hfed
  | _ => trivial

end

end Resolution

/-! ### Every name of a module -/

namespace Scoping

/-- Modules and functions are what places lie in; everything else has a place itself. -/
def isPlaced : Kind → Bool
  | .module .. | .function .. => false
  | _ => true

theorem isPlaced_of_accepts {role : Role} {k : Kind} (h : role.accepts k = true)
    (hrole : role ≠ .function) : isPlaced k = true := by
  cases k with
  | module _ _ => cases role <;> cases h
  | function _ _ _ _ _ =>
    cases role with
    | function => exact absurd rfl hrole
    | _ => cases h
  | _ => rfl

theorem isPlaced_of_mem {i : ElementId} {k : Kind} {o : Origin} {us : List Unfolding} {u : Unfolding}
    (h : Fits (.node i k o us)) (hk : changesScope k = false) (hu : u ∈ us) :
    isPlaced u.kind = true := by
  obtain ⟨⟨role, c⟩, hs, -, hrole⟩ := h.slot_of_mem hu
  refine isPlaced_of_accepts hrole ?_
  rintro rfl
  cases k with
  | whenClause _ _ arm => cases arm <;> simp [Kind.slots, Arm.actionRole] at hs
  | closure _ _ => cases hk
  | module _ _ => cases hk
  | _ => simp [Kind.slots] at hs

variable {v : Unfolding}

theorem exists_at_of_within {root u : Unfolding} {l : Layer} {env : List Layer} (hu : u.Fits)
    (hplaced : isPlaced u.kind = true) (h : At root (l :: env) u) (hv : v.Within u)
    (hk : isPlaced v.kind = true) : ∃ l' inner, At root (l' :: (inner ++ env)) v := by
  induction u using induct₂ generalizing l env with
  | node i k o us ih ih2 =>
    cases hv with
    | here => exact ⟨l, [], h⟩
    | @child _ _ _ _ u hm hv =>
      by_cases hscope : changesScope k = true
      · cases k with
        | block ids =>
          obtain ⟨before, after, rfl⟩ := append_of_mem hm
          obtain ⟨_, hrole⟩ := hu.all rfl u hm
          exact ih u hm (hu.child u hm) (isPlaced_of_accepts hrole nofun) h.statement hv
        | closure f bound =>
          obtain ⟨fn, rfl, hfn, hfunction⟩ := hu.one rfl
          obtain ⟨j, k, o', vs⟩ := fn
          cases k <;> cases hfunction
          obtain ⟨body, rfl, hbody, hblock⟩ := hfn.one rfl
          obtain rfl := mem_singleton.mp hm
          cases hv with
          | here => cases hk
          | child hm' hv =>
            obtain rfl := mem_singleton.mp hm'
            obtain ⟨l', inner, hat⟩ := ih2 _ (.head _) _
              (.head _) hbody (isPlaced_of_accepts hblock nofun) h.closure hv
            exact ⟨l', inner ++ [l], by rwa [append_assoc]⟩
        | module | function => cases hplaced
        | _ => cases hscope
      · rw [Bool.not_eq_true] at hscope
        exact ih u hm (hu.child u hm) (isPlaced_of_mem hu hscope hm) (h.part hscope hm) hv

variable {i : ElementId} {m : String} {ids : List ElementId} {o : Origin} {us : List Unfolding}

theorem exists_at_of_within_module (hfits : Fits (.node i (.module m ids) o us))
    (hv : v.Within (.node i (.module m ids) o us)) (hk : isPlaced v.kind = true) :
    ∃ l env, At (.node i (.module m ids) o us) (l :: env) v := by
  cases hv with
  | here => cases hk
  | @child _ _ _ _ fn hfn hv =>
    obtain ⟨hfits', hfunction⟩ := hfits.all rfl fn hfn
    obtain ⟨j, k, o', vs⟩ := fn
    cases k <;> cases hfunction
    obtain ⟨body, rfl, hbody, hblock⟩ := hfits'.one rfl
    cases hv with
    | here => cases hk
    | child hm hv =>
      obtain rfl := mem_singleton.mp hm
      obtain ⟨l, inner, hat⟩ :=
        exists_at_of_within hbody (isPlaced_of_accepts hblock nofun) (.function rfl hfn) hv hk
      exact ⟨l, _, hat⟩

theorem exists_at_of_mem_module (hfits : Fits (.node i (.module m ids) o us)) {p : ElementId × Kind}
    (hp : p ∈ (Unfolding.node i (.module m ids) o us).preorder) (hk : isPlaced p.2 = true) :
    ∃ l env o' vs, At (.node i (.module m ids) o us) (l :: env) (.node p.1 p.2 o' vs) := by
  obtain ⟨o', vs, hwithin⟩ := exists_within_of_mem hp
  obtain ⟨l, env, hat⟩ := exists_at_of_within_module hfits hwithin hk
  exact ⟨l, env, o', vs, hat⟩

end Scoping

/-- An unfolding after closure capture and then name resolution, and what resolution reports. -/
def Unfolding.resolve (u : Unfolding) : Unfolding × List Diagnostic :=
  let captured := u.marked (Capture.visit {} u).marks
  let r := Resolution.visit {} captured
  (captured.marked r.marks, r.diagnostics.toList)

namespace Unfolding.Fresh

variable {u : Unfolding}

theorem unresolved (hu : u.Fresh) (c : Capture) :
    ∀ p ∈ (u.marked c.marks).preorder, p.2.unresolved = true := by
  have hnone : ∀ {α : Type} {read : Mark → Option α} (i : ElementId) (x : α),
      (∀ names, read (.captures names) = none) → Mark.latest read i c.marks x = x := by
    intro α read i x hread
    refine Mark.latest_eq_self fun p hp _ z hz => ?_
    obtain ⟨q, -, rfl⟩ := List.mem_map.mp hp
    rw [hread] at hz
    cases hz
  have hplain := hu.plain
  clear hu
  induction hplain with
  | @node i k o us hk _ _ _ ih =>
    intro p hp
    rw [marked_node, preorder_node, flatMap_map] at hp
    rcases mem_cons.mp hp with rfl | hp
    · cases k with
      | reference x b =>
        rw [rekind_reference, hnone i b fun _ => rfl]
        exact hk
      | assignment x d value b initializer =>
        rw [rekind_assignment, hnone i b fun _ => rfl]
        exact hk
      | invocation x arguments target =>
        rw [rekind_invocation, hnone i target fun _ => rfl]
        exact hk
      | _ =>
        rw [rekind_def]
        rfl
    · obtain ⟨v, hv, hp⟩ := mem_flatMap.mp hp
      exact ih v hv p hp

theorem ready (hu : u.Fresh) : (u.marked (Capture.visit {} u).marks).Ready :=
  ⟨hu.fits.marked _, (ids_marked _ u).symm ▸ hu.nodup, hu.unresolved _⟩

theorem sameCaptures (c : Capture) (r : Resolution) :
    Capture.SameCaptures c.marks (c.marks ++ r.marks) := by
  intro j names
  rw [mem_append]
  refine ⟨fun h => h.resolve_right fun hr => ?_, .inl⟩
  simp [Resolution.marks] at hr

theorem resolved_of_at (hu : u.Fresh) (hroom : Roomy u.resolve.2) {env : List Layer} {v : Unfolding}
    (h : At u.resolve.1 env v) :
    ∃ l env', env = l :: env' ∧ Fed l env' ∧ Captured l env' ∧
      Resolved (functionNames u) u.resolve.2 l env' v := by
  have hcaptured : ∀ {l env v}, At u.resolve.1 (l :: env) v → Captured l env ∧
      ∀ x ∈ Capture.needs v, l.find? x = none → Visible env x → x ∈ l.captures := by
    intro l env v h
    rw [resolve, ← marked_append] at h
    exact Capture.captured_of_at hu (sameCaptures _ _) h
  obtain ⟨l, env', rfl, hfed, v0, r, rfl, hready, hmeets⟩ :=
    Resolution.meets_of_at hu.ready rfl rfl hroom hcaptured h
  obtain ⟨hc, hneeds⟩ := hcaptured h
  rw [functionNames_marked] at hmeets
  exact ⟨l, env', rfl, hfed, hc, hmeets.resolved hroom hready hc hneeds hfed⟩

end Unfolding.Fresh

/-- Name resolution is lexical scoping.  Closure capture and name resolution succeed on the tree of
every unit that is lowered.  Then everything in the module has a place, and if no frame ran out of slots,
each reference, assignment, declaration and call has been resolved to what lexical scoping makes of its
name at its place, or is reported. -/
theorem resolved_lexically {unit : Ast.CompilationUnit} {b b' : Builder} {t : Tree}
    (h : Lower.unit unit b = .ok t b') (journal : Array Event) :
    ∃ captured w found w' root, Capture.run ⟨t, journal⟩ = .ok captured w ∧ Resolution.run w = .ok found w' ∧
      w'.tree.unfoldRoot = some root ∧
      (∀ p ∈ root.preorder, isPlaced p.2 = true → ∃ l env o us, At root (l :: env) (.node p.1 p.2 o us)) ∧
      (Roomy found → ∀ l env v, At root (l :: env) v → Resolved (functionNames root) found l env v) := by
  obtain ⟨hfresh, hmodular⟩ := Lower.unit_fresh h
  obtain ⟨i, m, ids, o, us, hroot⟩ := hmodular.unfoldRoot hfresh.owned
  have hshows := (hfresh.owned.unfoldRoot_eq_some_iff.mp hroot).1
  have hu := hfresh.unfolding hshows
  generalize hu' : Unfolding.node i (.module m ids) o us = u at *
  obtain ⟨w, hcapture, howned, hw⟩ := Capture.run_eq (w := ⟨t, journal⟩) hfresh.owned hroot
  obtain ⟨w', hresolve, howned', hw'⟩ := Resolution.run_eq howned hw
  refine ⟨_, w, u.resolve.2, w', u.resolve.1, hcapture, hresolve, hw', ?_, ?_⟩
  · have hfits : u.resolve.1.Fits := (hu.fits.marked _).marked _
    have hmodule : ∀ as, Unfolding.rekind i as (.module m ids) = .module m ids := fun as =>
      Unfolding.rekind_eq_self i as fun a => by cases a <;> rfl
    subst hu'
    rw [Unfolding.resolve, Unfolding.marked_node, Unfolding.marked_node, hmodule, hmodule] at hfits ⊢
    exact fun p hp hk => exists_at_of_mem_module hfits hp hk
  · intro hroom l env v hat
    obtain ⟨l', env', heq, -, -, hresolved⟩ := hu.resolved_of_at hroom hat
    cases heq
    rwa [Unfolding.resolve, functionNames_marked, functionNames_marked]

/-- A function that returns a closure, which takes one name from it and has another of its own. -/
def adder : Ast.CompilationUnit where
  file := "adder"
  name := "adder"
  functions := [.mk (.function "main" ["x"]) {} [.mk .block {} [
    .mk (.letDecl "y") {} [.mk (.identifier "x") {} []],
    .mk .returns {} [.mk (.closure ["x"]) {} [.mk (.binary "+") {} [
      .mk (.identifier "x") {} [], .mk (.identifier "y") {} []]]]]]]
  location := none

theorem adder_lowered : (match Lower.unit adder {} with
    | .ok t _ => t.unfoldRoot.any fun u => (u.marked (Capture.visit {} u).marks).brings ≤ frameLimit
    | .error _ _ => false) = true := by
  decide +kernel

theorem adder_resolved_lexically :
    ∃ t b, Lower.unit adder {} = .ok t b ∧ ∃ captured w found w' root,
      Capture.run ⟨t, #[]⟩ = .ok captured w ∧ Resolution.run w = .ok found w' ∧
      w'.tree.unfoldRoot = some root ∧ Roomy found ∧
      ∀ l env v, At root (l :: env) v → Resolved (functionNames root) found l env v := by
  have htest := adder_lowered
  cases hlower : Lower.unit adder {} with
  | error e b =>
    rw [hlower] at htest
    cases htest
  | ok t b =>
    rw [hlower] at htest
    obtain ⟨captured, w, found, w', root, hcapture, hresolve, hroot, -, hresolved⟩ :=
      resolved_lexically hlower #[]
    have hroom : Roomy found := by
      obtain ⟨hfresh, -⟩ := Lower.unit_fresh hlower
      obtain ⟨u, hu, hbrings⟩ := (Option.any_eq_true _ _).mp htest
      obtain ⟨w₁, hcapture₁, howned, hw₁⟩ := Capture.run_eq (w := ⟨t, #[]⟩) hfresh.owned hu
      cases hcapture.symm.trans hcapture₁
      obtain ⟨w₂, hresolve₂, -, -⟩ := Resolution.run_eq howned hw₁
      cases hresolve.symm.trans hresolve₂
      exact Resolution.roomy_of_brings (of_decide_eq_true hbrings)
    exact ⟨t, b, rfl, captured, w, found, w', root, hcapture, hresolve, hroot, hroom, hresolved hroom⟩

end Clausal
