import Clausal.Proofs.Bytecode.Functions
import Clausal.Proofs.Meaning.Statements
import Clausal.Proofs.Tree.Histories

/-! # The code of functions

A function body becomes its code followed by a return of null, and from the two directions for statements it
follows that the code halts exactly when the body comes to an end, with the same value, frame and trace
(`returns_iff_halts`). -/

namespace Clausal

namespace Meaning

open Generate

variable {V : Type} {I : Interpretation V}

/-! ### Functions -/

/-- The code of a function does what the function means: it halts exactly when running the body of the
function comes to an end, with the same value, frame and trace. -/
def Implements (f : Unfolding) (c : FunctionCode) : Prop :=
  (∃ name params body isClosure captures, f.kind = .function name params body isClosure captures ∧
    c.name = name ∧ c.arity = params.length ∧ c.captures = captures.length) ∧
  ∀ (V : Type) (I : Interpretation V) (s : Store V) (v : V) (s1 : Store V),
    Returns I f s v s1 ↔ ∃ n, Halts I c.code n ⟨0, [], s⟩ v s1

variable {i : ElementId} {o : Origin}

theorem returns_iff_halts {k : Kind} {body : Unfolding} {e : Emission} (hb : body.Fits)
    (hbb : Role.block.accepts body.kind = true) (he : emit 0 body = .ok e) {s : Store V} {v : V}
    {s1 : Store V} :
    Returns I (.node i k o [body]) s v s1 ↔
      ∃ n, Halts I (e.code ++ [.const .null, .ret]) n ⟨0, [], s⟩ v s1 := by
  obtain ⟨hs, hne⟩ := statement_of_block hbb
  have he' : (Task.statement body).emit 0 = .ok e := by
    rwa [Task.emit, emitStatement_of_statement hne]
  have hp : Placed (e.code ++ [.const .null, .ret]) 0 e.code := ⟨[], [.const .null, .ret], rfl, rfl⟩
  have hlast : Placed (e.code ++ [.const .null, .ret]) (0 + e.size) [.const .null, .ret] :=
    ⟨e.code, [], by simp, (Nat.zero_add _).symm⟩
  have hend : ∀ s : Store V, Halts I (e.code ++ [.const .null, .ret]) 1 ⟨0 + e.size, [], s⟩
      (I.constant .null) s :=
    fun s => .head (step_of_op hlast.head) (.ret hlast.tail.head)
  constructor
  · rintro ⟨_, r, heq, hr, hresult⟩
    obtain rfl := List.singleton_inj.mp heq
    have hreached := hr.reached he' ⟨hb, hs⟩ hp []
    cases r with
    | falls s2 =>
      obtain ⟨rfl, rfl⟩ := Prod.mk.inj hresult
      obtain ⟨k, hk⟩ := hreached
      exact ⟨k + 1, hk.halts (hend s2)⟩
    | returns w s2 =>
      obtain ⟨rfl, rfl⟩ := Prod.mk.inj hresult
      exact hreached
  · rintro ⟨n, hn⟩
    obtain ⟨r, hr, hcont⟩ := accounts body ⟨hb, hs⟩ he' hp n [] s v s1 hn
    refine ⟨body, r, rfl, hr, ?_⟩
    cases r with
    | falls s2 =>
      obtain ⟨m, -, hm⟩ := hcont
      obtain ⟨rfl, rfl⟩ := hm.unique (hend s2)
      rfl
    | returns w s2 =>
      obtain ⟨rfl, rfl⟩ := hcont
      rfl

theorem implements_of_codes {f : Unfolding} {c : FunctionCode} (h : Codes f c) : Implements f c := by
  cases h with
  | @function i b name params captures lifted o body e hb hbb he =>
    exact ⟨⟨name, params, b, lifted, captures, rfl, rfl, rfl, rfl⟩, fun _ _ _ _ _ =>
      returns_iff_halts hb hbb he⟩

variable {cs : List FunctionCode}

theorem outside_module {name : String} {ids : List ElementId} {us : List Unfolding}
    (hu : Unfolding.Fits (.node i (.module name ids) o us))
    (h : outside (.node i (.module name ids) o us) = .ok cs) :
    List.Forall₂ Implements (Unfolding.node i (.module name ids) o us).functions cs :=
  (codes_of_module hu h).imp fun _ _ => implements_of_codes

theorem outside_yields (u : Unfolding) (hfits : u.Fits) (h : outside u = .ok cs) :
    ∃ fs : List Unfolding, fs.Sublist u.functions ∧ List.Forall₂ Implements fs cs := by
  obtain ⟨fs, hsub, hcodes⟩ := codes_of_outside hfits h
  exact ⟨fs, hsub, hcodes.imp fun _ _ => implements_of_codes⟩

/-- Generated code means what the tree means.  Whenever code is generated from an owned tree, each
function of the program implements a function of the tree, one after the other in the order of the
tree, and if the root is a module then each function of the tree is implemented. -/
theorem generated_code_implements {t : Tree} (h : t.Owned) {p : Program}
    (hp : Program.ofTree t = .ok p) :
    ∃ fs : List Unfolding, List.Forall₂ Implements fs p.functions ∧ (∀ f ∈ fs, t.unfold f.id = some f) ∧
      ∀ root, t.unfoldRoot = some root → fs.Sublist root.functions ∧
        (∀ name ids, root.kind = .module name ids → fs = root.functions) := by
  unfold Program.ofTree at hp
  cases hroot : t.unfoldRoot with
  | none =>
    rw [hroot] at hp
    obtain rfl := Except.ok.inj hp
    exact ⟨[], .nil, by simp, by simp⟩
  | some root =>
    rw [hroot] at hp
    simp only [bind_eq_ok_iff] at hp
    obtain ⟨cs, hcs, heq⟩ := hp
    obtain rfl := Except.ok.inj heq
    have hshows := (h.unfoldRoot_eq_some_iff.mp hroot).1
    have hfits := hshows.fits h
    have hunfold : ∀ f ∈ root.functions, t.unfold f.id = some f := fun f hf =>
      h.unfold_eq_some_iff.mpr ⟨hshows.function hf, rfl⟩
    obtain ⟨i, k, o, us⟩ := root
    by_cases hk : ∃ name ids, k = .module name ids
    · obtain ⟨name, ids, rfl⟩ := hk
      refine ⟨_, outside_module hfits hcs, hunfold, ?_⟩
      rintro _ ⟨⟩
      exact ⟨List.Sublist.refl _, fun _ _ _ => rfl⟩
    · obtain ⟨fs, hsub, himp⟩ := outside_yields _ hfits hcs
      refine ⟨fs, himp, fun f hf => hunfold f (hsub.subset hf), ?_⟩
      rintro _ ⟨⟩
      exact ⟨hsub, fun name ids hmodule => absurd ⟨name, ids, hmodule⟩ hk⟩

/-- A module with one function, which counts a variable up as long as it is below three. -/
def counting : Tree :=
  Tree.reached "counting" <| [
    Kind.reference "x" (some ⟨0, .parameter⟩), .constant (.int 3), .binary .lt 0 1,
    .reference "x" (some ⟨0, .parameter⟩), .constant (.int 1), .binary .add 3 4,
    .assignment "x" none 5 (some ⟨0, .parameter⟩) false, .block [6], .loop 2 7, .block [8],
    .function "count" ["x"] 9 false [], .module "counting" [10]].map (Tree.Call.alloc · {}) ++
    [.setRoot 11]

theorem counting_implemented :
    counting.Owned ∧
    ∃ p f, Program.ofTree counting = .ok p ∧ counting.unfold 10 = some f ∧
      p.functions.map (·.code) = [[.load 0, .const (.int 3), .lt, .brFalse 9, .load 0,
        .const (.int 1), .add, .store 0, .jump 0, .const .null, .ret]] ∧
      List.Forall₂ Implements [f] p.functions := by
  have howned : counting.Owned := Tree.foldl_perform_owned (Tree.empty_owned _) _
  have hp : ∃ p, Program.ofTree counting = .ok p ∧
      p.functions.map (·.code) = [[.load 0, .const (.int 3), .lt, .brFalse 9, .load 0,
        .const (.int 1), .add, .store 0, .jump 0, .const .null, .ret]] := ⟨_, rfl, rfl⟩
  have hroot : ∃ root f, counting.unfoldRoot = some root ∧ root.functions = [f] ∧ f.id = 10 ∧
      ∃ name ids, root.kind = .module name ids := ⟨_, _, rfl, rfl, rfl, _, _, rfl⟩
  obtain ⟨p, hp, hcode⟩ := hp
  obtain ⟨root, f, hroot, hf, hid, name, ids, hmodule⟩ := hroot
  obtain ⟨fs, himp, hunfold, hall⟩ := generated_code_implements howned hp
  obtain rfl := ((hall root hroot).2 name ids hmodule).trans hf
  exact ⟨howned, p, f, hp, hid ▸ hunfold f (by simp), hcode, himp⟩

end Meaning

end Clausal
