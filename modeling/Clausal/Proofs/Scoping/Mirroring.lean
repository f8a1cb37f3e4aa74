import Clausal.Proofs.Scoping.Announcements
import Clausal.Proofs.Scoping.Targets

/-! # Tests of elements and expanded matches

A test that every element of an unfolding has to pass, in the state in which a walk comes to it, is passed by
an unfolding exactly if it is passed by the expansion of its matches. -/

namespace Clausal

open MatchExpansion Scoping List Option Unfolding Sink

namespace Walker

variable {σ : Type} {W : Walker σ} {P : σ → Unfolding → Prop}

theorem each_iff_parts {s : σ} {i : ElementId} {k : Kind} {o : Origin} {us : List Unfolding} :
    W.Each P s (.node i k o us) ↔ P s (.node i k o us) ∧ W.EachAll P (W.enter s (.node i k o us)) us :=
  ⟨fun h => ⟨h.here, h.parts⟩, fun ⟨hP, hus⟩ => .node hP hus⟩

theorem eachAll_one_iff {s : σ} {u : Unfolding} : W.EachAll P s [u] ↔ W.Each P s u := by
  rw [eachAll_cons_iff]
  exact and_iff_left fun before v after heq => by simp at heq

/-- A test comes out the same for an unfolding and for its expansion.  Declarations need more than the walks
have in common everywhere: `level` holds of two states inside blocks of which one comes from the other. -/
structure Mirrors (W : Walker σ) (P : σ → Unfolding → Prop) (S level : σ → σ → Prop)
    (drains : σ → (ElementId → Kind) → (ElementId → Kind) → Prop)
    (same' : Kind → (ElementId → Kind) → Prop) : Prop where
  tracks : W.Tracks P S drains Drains same'
  alike : ∀ {s s' i k k' o us us'}, Fits (.node i k o us) →
    Fits (.node i k' o us') → k.Akin k' →
    S (W.below s (.node i k o us)) (W.below s' (.node i k' o us')) →
    (declares (.node i k o us) ≠ none → level s s') →
    (P s (.node i k o us) ↔ P s' (.node i k' o us'))
  branch : ∀ {s i k o us}, k.isBranch = true → P s (.node i k o us)
  block : ∀ {s i ids o us}, P s (.node i (.block ids) o us)
  takes : ∀ {s i k make o v}, Fits (.node i k o [v]) → Drains k make →
    (P s (.node i k o [v]) ↔ ∃ make', drains s make make')
  gives : ∀ {s s' i k x make o v}, Drains k make → S s (W.visit s' v) →
    (P s' (.node i (make x) o [v]) ↔ ∃ make', drains s make make')
  steady : ∀ {s make make' v}, v.Fits → v.kind.isExpression = true → drains (W.visit s v) make make' →
    drains s make make'
  enter : ∀ {k sink i o us}, ofKind? k = some sink → ∀ s, W.enter s (.node i k o us) = s
  opens : ∀ {s s' i ids ids' o us us'}, S s s' →
    level (W.enter s (.node i (.block ids) o us)) (W.enter s' (.node i (.block ids') o us'))
  quiet : ∀ {s s' u u'}, u.Fits → u'.Fits → declares u = none → declares u' = none → level s s' →
    level (W.visit s u) (W.visit s' u')
  declares : ∀ {s s' i k o us us'}, Fits (.node i k o us) → Fits (.node i k o us') →
    declares (.node i k o us) ≠ none → P s (.node i k o us) → P s' (.node i k o us') → level s s' →
    level (W.visit s (.node i k o us)) (W.visit s' (.node i k o us'))

namespace Mirrors

variable {S level : σ → σ → Prop} {drains : σ → (ElementId → Kind) → (ElementId → Kind) → Prop}
  {same' : Kind → (ElementId → Kind) → Prop} {make : ElementId → Kind} {k : Kind} {o : Origin}
  {v u : Unfolding} {us us' : List Unfolding}

/-- What is to be shown of an element and its expansion: the test comes out the same, and the walks stay in touch
where it is passed. -/
def Follows (W : Walker σ) (P : σ → Unfolding → Prop) (S level : σ → σ → Prop)
    (same' : Kind → (ElementId → Kind) → Prop) (u : Unfolding) : Prop :=
  ∀ u' s s', u'.Fits → Expanded Drains u u' → S s s' → (Scoping.declares u ≠ none → level s s') →
    (W.Each P s u ↔ W.Each P s' u') ∧
    (W.Each P s u → S (W.visit s u) (W.visit s' u') ∧ Expanded same' (W.settle s u) (W.settle s' u'))

/-- The same for a value and the statements that take it. -/
def Drained (W : Walker σ) (P : σ → Unfolding → Prop) (S : σ → σ → Prop)
    (drains : σ → (ElementId → Kind) → (ElementId → Kind) → Prop) (same' : Kind → (ElementId → Kind) → Prop)
    (v : Unfolding) : Prop :=
  v.kind.isExpression = true → ∀ k make u s s', Drains k make → u.Fits → Poured Drains make v u → S s s' →
    (W.Each P s v ∧ (∃ make', drains s make make') ↔ W.Each P s' u) ∧
    ∀ make', drains s make make' → W.Each P s v →
      S (W.visit s v) (W.visit s' u) ∧ Poured same' make' (W.settle s v) (W.settle s' u)

theorem exists_drains_iff (h : W.Mirrors P S level drains same') {s : σ} (hv : v.Fits)
    (hve : v.kind.isExpression = true) :
    (∃ make', drains (W.visit s v) make make') ↔ ∃ make', drains s make make' :=
  exists_congr fun _ => ⟨h.steady hv hve, h.tracks.steady hv hve⟩

theorem level_visit (h : W.Mirrors P S level drains same') {s s' : σ} {u' : Unfolding} (hu : u.Fits)
    (hu' : u'.Fits) (hexp : Expanded Drains u u') (hP : P s u) (hP' : P s' u') (hlevel : level s s') :
    level (W.visit s u) (W.visit s' u') := by
  by_cases hd : Scoping.declares u = none
  · exact h.quiet hu hu' hd ((declares_of_expanded hexp).trans hd) hlevel
  · cases hexp with
    | node hakin =>
      rcases hakin with rfl | ⟨_, _, rfl, rfl⟩
      · exact h.declares hu hu' hd hP hP' hlevel
      · exact absurd rfl hd
    | poured hdrains =>
      obtain ⟨sink, hk, rfl⟩ := hdrains
      exact absurd (declares_of_ofKind? hk ..) hd

theorem follows_all (h : W.Mirrors P S level drains same')
    (hus : ∀ u ∈ us, u.Fits ∧ Follows W P S level same' u) (hus' : ∀ u ∈ us', u.Fits)
    (hexp : Forall₂ (Expanded Drains) us us') {s s' : σ} (hs : S s s')
    (hlevel : declared us ≠ [] → level s s') :
    (W.EachAll P s us ↔ W.EachAll P s' us') ∧
    (W.EachAll P s us → S (us.foldl W.visit s) (us'.foldl W.visit s') ∧
      Forall₂ (Expanded same') (W.settleAll s us) (W.settleAll s' us')) := by
  induction hexp generalizing s s' with
  | nil =>
    rw [settleAll, settleAll]
    exact ⟨⟨fun _ before v after heq => by simp at heq, fun _ before v after heq => by simp at heq⟩,
      fun _ => ⟨hs, .nil⟩⟩
  | @cons u u' us us' hexp _ ih =>
    obtain ⟨hu, hfollows⟩ := hus u (.head _)
    have hu' := hus' u' (.head _)
    obtain ⟨hhead, htrack⟩ := hfollows u' s s' hu' hexp hs fun hd => hlevel (by
      obtain ⟨d, hd⟩ := ne_none_iff_exists'.mp hd
      simp [declared, hd])
    have hrest (heach : W.Each P s u) := ih (fun v hv => hus v (.tail _ hv)) (fun v hv => hus' v (.tail _ hv))
      (htrack heach).1 fun hd => h.level_visit hu hu' hexp heach.here (hhead.mp heach).here (hlevel (by
        rw [declared_cons]
        exact append_ne_nil_of_right_ne_nil _ hd))
    rw [eachAll_cons_iff, eachAll_cons_iff, settleAll, settleAll]
    refine ⟨?_, fun h => ?_⟩
    · rw [← hhead]
      exact and_congr_right fun heach => (hrest heach).1
    · obtain ⟨heach, hall⟩ := h
      obtain ⟨hvisit, hsettles⟩ := (hrest heach).2 hall
      exact ⟨hvisit, .cons (htrack heach).2 hsettles⟩

theorem drained_block (h : W.Mirrors P S level drains same') (hv : Drained W P S drains same' v)
    (hve : v.kind.isExpression = true) (hdrains : Drains k make) {s s' : σ} {b : ElementId}
    {ids : List ElementId} (hfits : Fits (.node b (.block ids) o [u]))
    (hpoured : Poured Drains make v u) (hs : S s s') :
    (W.Each P s v ∧ (∃ make', drains s make make') ↔ W.Each P s' (.node b (.block ids) o [u])) ∧
    ∀ make', drains s make make' → W.Each P s v →
      S (W.visit s v) (W.visit s' (.node b (.block ids) o [u])) ∧
      ∃ u', W.settle s' (.node b (.block ids) o [u]) = .node b (.block ids) o [u'] ∧
        Poured same' make' (W.settle s v) u' := by
  obtain ⟨hopen, hown⟩ := h.tracks.opens hs
  obtain ⟨hiff, htrack⟩ := hv hve k make u s _ hdrains (hfits.child u (.head _)) hpoured hopen
  refine ⟨?_, fun make' hmake heach => ?_⟩
  · rw [each_iff_parts, eachAll_one_iff, and_iff_right h.block]
    exact hiff
  · obtain ⟨hvisit, hsettle⟩ := htrack make' hmake heach
    refine ⟨h.tracks.closes hfits (h.tracks.declares_of_poured hmake hpoured) hs hvisit, _, ?_, hsettle⟩
    rw [settle, hown, settleAll, settleAll]
    rfl

theorem each_clause_iff (h : W.Mirrors P S level drains same') {i c a : ElementId} {arm : Arm}
    {condition action : Unfolding} {s : σ} :
    W.Each P s (.node i (.whenClause c a arm) o [condition, action]) ↔
      W.Each P s condition ∧ W.Each P (W.visit s condition) action := by
  rw [each_iff_parts, (h.tracks.branch rfl s).1, eachAll_cons_iff, eachAll_one_iff,
    and_iff_right (h.branch rfl)]

theorem drained_arms (h : W.Mirrors P S level drains same')
    (harms : Arms .value us) (hus : ∀ u ∈ us, Drained W P S drains same' u)
    (hus' : ∀ u ∈ us, ∀ v ∈ u.children, Follows W P S level same' v ∧ Drained W P S drains same' v)
    (hdrains : Drains k make) (hfits : ∀ u ∈ us', u.Fits) (hpoured : PouredArms Drains make us us') {s s' : σ}
    (hs : S s s') :
    (W.EachAll P s us ∧ (∃ make', drains s make make') ↔ W.EachAll P s' us') ∧
    ∀ make', drains s make make' → W.EachAll P s us →
      S (us.foldl W.visit s) (us'.foldl W.visit s') ∧
        PouredArms same' make' (W.settleAll s us) (W.settleAll s' us') := by
  induction harms generalizing us' s s' with
  | @fallback v hv hve =>
    cases hpoured with
    | @fallback _ _ u b ids o hexpr hpoured =>
      obtain ⟨hiff, htrack⟩ := h.drained_block (hus v (.head _)) hve hdrains (hfits _ (.head _)) hpoured hs
      rw [eachAll_one_iff, eachAll_one_iff]
      refine ⟨hiff, fun make' hmake heach => ?_⟩
      obtain ⟨hvisit, u', hsettle, hpoured'⟩ := htrack make' hmake heach
      refine ⟨hvisit, ?_⟩
      simp only [settleAll, hsettle]
      exact .fallback (by rw [Tracks.isExpression_settle, hexpr]) hpoured'
    | clause _ _ hnil => cases hnil
  | @clause i c a o condition v rest hc hce hv hve _ ih =>
    cases hpoured with
    | fallback hexpr => cases hexpr
    | @clause _ _ j _ c' _ b b' ids _ o' _ condition' _ u _ rest' hcondition hpoured hrest =>
      have hclause' := hfits _ (.head _)
      have hblock' := hclause'.child (.node b (.block ids) o' [u]) (by simp)
      -- first the condition, then the value in its block, and then the other arms
      obtain ⟨hfirst, htrack⟩ := (hus' _ (.head _) condition (by simp [children])).1 condition' s s'
        (hclause'.child condition' (by simp)) hcondition hs fun hd => absurd (declares_of_isExpression hce) hd
      have hvalue (heach : W.Each P s condition) := h.drained_block
        (hus' _ (.head _) v (by simp [children])).2 hve hdrains hblock' hpoured (htrack heach).1
      have hothers {make' : ElementId → Kind} (heach : W.Each P s condition)
          (hmake : drains (W.visit s condition) make make') (heachv : W.Each P (W.visit s condition) v) :=
        ih (fun u hu => hus u (.tail _ hu)) (fun u hu => hus' u (.tail _ hu))
          (fun u hu => hfits u (.tail _ hu)) hrest ((hvalue heach).2 make' hmake heachv).1
      refine ⟨?_, fun make' hmake hall => ?_⟩
      · rw [eachAll_cons_iff, eachAll_cons_iff, h.each_clause_iff, h.each_clause_iff,
          h.tracks.visit_clause, h.tracks.visit_clause, ← hfirst, and_assoc, and_assoc, and_assoc]
        refine and_congr_right fun heach => ?_
        -- the value is tested in its block, where it can only pass if the statement does
        rw [← h.exists_drains_iff hc hce, ← (hvalue heach).1, and_comm (b := ∃ make', _), ← and_assoc]
        refine and_congr_right ?_
        rintro ⟨heachv, make', hmake⟩
        rw [← (hothers heach hmake heachv).1]
        exact (and_iff_left ⟨make', h.tracks.steady hv hve hmake⟩).symm
      · rw [eachAll_cons_iff, h.each_clause_iff, h.tracks.visit_clause] at hall
        obtain ⟨⟨heach, heachv⟩, hall⟩ := hall
        have hmake' := h.tracks.steady hc hce hmake
        obtain ⟨-, u', hsettle, hpoured'⟩ := (hvalue heach).2 make' hmake' heachv
        obtain ⟨hvisit, hpoureds⟩ := (hothers heach hmake' heachv).2 make' (h.tracks.steady hv hve hmake') hall
        rw [foldl_cons, foldl_cons, h.tracks.visit_clause, h.tracks.visit_clause]
        refine ⟨hvisit, ?_⟩
        rw [settleAll, settleAll, h.tracks.settle_branch rfl, h.tracks.settle_branch rfl,
          h.tracks.visit_clause, h.tracks.visit_clause]
        simp only [settleAll, hsettle]
        exact .clause (htrack heach).2 hpoured' hpoureds

theorem follows_and_drained (h : W.Mirrors P S level drains same') (u : Unfolding) (hu : u.Fits) :
    Follows W P S level same' u ∧ Drained W P S drains same' u := by
  induction u using induct₂ with
  | node i k o us ih ih' =>
    have hus := fun u hm => ih u hm (hu.child u hm)
    have hfollows : Follows W P S level same' (.node i k o us) := by
      intro u' s s' hu' hexp hs hlevel
      cases hexp with
      | @node _ _ k' _ _ us' hakin hparts =>
        have hlevels : declared us ≠ [] →
            level (W.enter s (.node i k o us)) (W.enter s' (.node i k' o us')) := by
          intro hd
          by_cases hblock : ∃ ids, k = .block ids
          · obtain ⟨ids, rfl⟩ := hblock
            obtain ⟨ids', rfl⟩ : ∃ ids', k' = .block ids' := by
              rcases hakin with rfl | ⟨_, ids', _, rfl⟩
              · exact ⟨ids, rfl⟩
              · exact ⟨ids', rfl⟩
            exact h.opens hs
          · exact absurd (declared_of_fits hu fun ids hk => hblock ⟨ids, hk⟩) hd
        obtain ⟨hrow, htrack⟩ := h.follows_all (fun u hm => ⟨hu.child u hm, (hus u hm).1⟩) hu'.child hparts
          (h.tracks.enter hs hakin hparts) hlevels
        have hhere (hall : W.EachAll P (W.enter s (.node i k o us)) us) :
            P s (.node i k o us) ↔ P s' (.node i k' o us') := h.alike hu hu' hakin (htrack hall).1 hlevel
        rw [each_iff_parts, each_iff_parts]
        refine ⟨?_, fun ⟨hP, hall⟩ => ?_⟩
        · rw [and_comm, and_comm (a := P s' _), ← hrow]
          exact and_congr_right hhere
        · obtain ⟨hbelow, hsettles⟩ := htrack hall
          obtain ⟨hvisit, hown⟩ := h.tracks.leave hu hu' hs hakin hparts hP ((hhere hall).mp hP) hbelow
          refine ⟨hvisit, ?_⟩
          rw [settle, settle, ← hown]
          exact .node (Mark.settle_akin _ hakin) hsettles
      | @poured _ _ make _ v _ hdrains hpoured =>
        have henter : W.enter s (.node i k o [v]) = s := by
          obtain ⟨sink, hk, -⟩ := hdrains
          exact h.enter hk s
        have hparts : W.Each P s (.node i k o [v]) ↔ W.Each P s v ∧ ∃ make', drains s make make' := by
          rw [each_iff_parts, henter, eachAll_one_iff, h.takes hu hdrains, and_comm]
        obtain ⟨hiff, htrack⟩ := (hus v (.head _)).2 (hdrains.isExpression hu) k make u' s s' hdrains hu' hpoured hs
        refine ⟨hparts.trans hiff, fun heach => ?_⟩
        obtain ⟨hleave, make', hmake, hsame'⟩ := h.tracks.takes hu hdrains heach.here
        obtain ⟨hvisit, hpoured'⟩ := htrack make' hmake (hparts.mp heach).1
        refine ⟨hleave _ hvisit, ?_⟩
        rw [Tracks.settle_one henter]
        exact .poured hsame' hpoured'
    refine ⟨hfollows, fun hue k' make u' s s' hdrains hu' hpoured hs => ?_⟩
    cases hpoured with
    | @value _ _ v' j x o' hexp =>
      have henter : W.enter s' (.node j (make x) o' [v']) = s' := by
        obtain ⟨sink, -, rfl⟩ := hdrains
        exact h.enter (ofKind?_statement sink x) s'
      obtain ⟨hvalue, htrack⟩ := hfollows v' s s' (hu'.child v' (.head _)) hexp hs fun hd =>
        absurd (declares_of_isExpression hue) hd
      refine ⟨?_, fun make' hmake heach => ?_⟩
      · rw [hvalue, each_iff_parts, henter, eachAll_one_iff, and_comm]
        refine and_congr_left fun heach' => ?_
        rw [h.gives hdrains (htrack (hvalue.mpr heach')).1, h.exists_drains_iff hu hue]
      · obtain ⟨hvisit, hsettle⟩ := htrack heach
        obtain ⟨hvisit', hkind⟩ := h.tracks.gives (h.tracks.steady hu hue hmake) hvisit
        refine ⟨hvisit', ?_⟩
        rw [Tracks.settle_one henter, hkind]
        exact .value hsettle
    | @matchOf _ _ j x y ids ids' _ o' _ us' harms =>
      obtain ⟨hiff, htrack⟩ := h.drained_arms (hu.arms rfl) (fun u hm => (hus u hm).2) (fun u hm v hv => by
        obtain ⟨_, _, _, _⟩ := u
        exact ih' _ hm v hv ((hu.child _ hm).child v hv)) hdrains hu'.child harms hs
      rw [each_iff_parts, each_iff_parts, (h.tracks.branch rfl s).1, (h.tracks.branch rfl s').1,
        and_iff_right (h.branch rfl), and_iff_right (h.branch rfl), (h.tracks.branch rfl s).2.1,
        (h.tracks.branch rfl s').2.1, h.tracks.settle_branch rfl, h.tracks.settle_branch rfl]
      refine ⟨hiff, fun make' hmake hall => ?_⟩
      obtain ⟨hvisit, hsettle⟩ := htrack make' hmake hall
      exact ⟨hvisit, .matchOf hsettle⟩

end Mirrors

end Walker

/-! ### Closure capture -/

namespace Capture

variable {c c' : Capture} {sink : Sink}

theorem Near.targets_iff (h : c.Near c') {x : String} : c'.Targets x ↔ c.Targets x := by
  refine ⟨?_, h.targets⟩
  rintro ⟨f', fs', hc', hf'⟩
  rcases (forall₂_iff _ _ _).mp h with ⟨-, hnil⟩ | ⟨f, g, fs, gs, hnear, -, hc, hg⟩
  · rw [hc'] at hnil
    cases hnil
  · rw [hc'] at hg
    cases hg
    exact ⟨f, fs, hc, by rw [← hnear.declares, hf']⟩

theorem owns_sink_iff {k : Kind} (hk : ofKind? k = some sink) {i : ElementId} {o : Origin}
    {v : Unfolding} :
    Owns c (.node i k o [v]) ↔ ∀ x initializer, sink = .assign x initializer → (visit c v).Targets x := by
  unfold ofKind? at hk
  split at hk
  · rename_i x value b initializer
    cases hk
    refine ⟨fun h y f heq => ?_, fun h y value' b' f heq => ?_⟩
    · cases heq
      exact h x value b initializer rfl
    · cases heq
      exact h x initializer rfl
  · cases hk
    exact ⟨fun _ _ _ => nofun, fun _ _ _ _ _ => nofun⟩
  · cases hk

theorem exists_drains_iff :
    (∃ make', c.Drains (fun x => sink.statement x) make') ↔
      ∀ x initializer, sink = .assign x initializer → c.Targets x := by
  refine ⟨?_, fun h => ⟨_, rfl, sink, rfl, h⟩⟩
  rintro ⟨make', rfl, sink', heq, h⟩ x initializer rfl
  have hsink : some (Sink.assign x initializer) = some sink' := by
    rw [← ofKind?_statement (.assign x initializer) 0, ← ofKind?_statement sink' 0]
    exact congrArg ofKind? (congrFun heq 0)
  exact h x initializer (Option.some.inj hsink).symm

theorem walker_mirrors : walker.Mirrors Owns Near (fun _ _ => True) Drains MatchExpansion.Drains where
  tracks := walker_tracks
  alike {c c' i k k' o us us'} _ _ hakin hbelow _ := by
    rcases hakin with rfl | ⟨ids, ids', rfl, rfl⟩
    · exact forall_congr' fun x => forall_congr' fun v => forall_congr' fun b => forall_congr' fun f =>
        forall_congr' fun _ => hbelow.targets_iff.symm
    · exact ⟨fun _ _ _ _ _ => nofun, fun _ _ _ _ _ => nofun⟩
  branch hk := by
    rintro x v b f rfl
    cases hk
  block := fun _ _ _ _ => nofun
  takes {c i k make o v} hu hdrains := by
    have hquiet := declares_of_isExpression (hdrains.isExpression hu)
    obtain ⟨sink, hk, rfl⟩ := hdrains
    rw [owns_sink_iff hk, exists_drains_iff]
    exact forall_congr' fun x => forall_congr' fun f => forall_congr' fun _ =>
      targets_visit_iff (hu.child v (.head _)) hquiet
  gives {c c' i k x make o v} hdrains hvisit := by
    obtain ⟨sink, -, rfl⟩ := hdrains
    rw [owns_sink_iff (ofKind?_statement sink x), exists_drains_iff]
    exact forall_congr' fun x => forall_congr' fun f => forall_congr' fun _ => hvisit.targets_iff
  steady hv hve hdrains :=
    ⟨hdrains.1, hdrains.2.imp fun sink h => ⟨h.1, fun x initializer heq =>
      (targets_visit_iff hv (declares_of_isExpression hve)).mp (h.2 x initializer heq)⟩⟩
  enter {k sink i o us} hk c := by
    cases k <;> first | rfl | cases hk
  opens _ := trivial
  quiet _ _ _ _ _ := trivial
  declares _ _ _ _ _ _ := trivial

end Capture

/-! ### Name resolution -/

namespace Resolution

variable {r r' r'' : Resolution} {x : String} {d : Declaration} {i : ElementId} {o : Origin} {sink : Sink}
  {v : Unfolding}

/-- The innermost block declares a name; nothing if there is no block. -/
def declaresHere? (r : Resolution) (x : String) : Option Bool :=
  (r.frames.head?.bind (·.scopes.head?)).map (·.contains x)

def Level (r r' : Resolution) : Prop := ∀ x, r'.declaresHere? x = r.declaresHere? x

theorem Keeps.declaresHere? (h : r.Keeps Frame.scopes r') (x : String) :
    r'.declaresHere? x = r.declaresHere? x := by
  have hhead := congrArg (Option.bind · head?) h.2
  rw [bind_map, bind_map] at hhead
  exact congrArg (Option.map (·.contains x)) hhead

theorem isSome_declared?_iff :
    (r.declared? x d).isSome = true ↔
      (∃ n, r.frames.head?.map Frame.nextSlot = some n ∧ n < frameLimit) ∧
        r.declaresHere? x = some false := by
  unfold declared? Resolution.declaresHere?
  cases r.frames.head? with
  | none => simp
  | some f =>
    obtain ⟨function, scopes, next⟩ := f
    cases scopes with
    | nil => simp [Frame.declare, Except.toOption]
    | cons scope outer =>
      simp only [bind_some, Frame.declare, head?_cons, map_some,
        Option.some.injEq, exists_eq_left']
      split_ifs with hcontains hfull
      · rw [hcontains]
        simp [Except.toOption]
      · simp [Except.toOption, hfull]
      · rw [Bool.not_eq_true] at hcontains
        simp only [Except.toOption, isSome_some, hcontains, Nat.not_le.mp hfull, and_self]

theorem Level.isSome_declared?_iff (h : r.Level r') (hnear : r.Near r') :
    (r'.declared? x d).isSome = true ↔ (r.declared? x d).isSome = true := by
  have hnext : r'.frames.head?.map Frame.nextSlot = r.frames.head?.map Frame.nextSlot := by
    rcases (forall₂_iff _ _ _).mp hnear.frames with ⟨hr, hr'⟩ | ⟨f, f', fs, fs', hf, -, hr, hr'⟩
    · rw [hr, hr']
    · rw [hr, hr']
      exact congrArg some hf.next
  rw [Resolution.isSome_declared?_iff, Resolution.isSome_declared?_iff, hnext, h x]

theorem declaresHere?_declareLocal (h : (r.declared? x d).isSome = true) (y : String) :
    (r.declareLocal i o x d).declaresHere? y = (r.declaresHere? y).map (x == y || ·) := by
  obtain ⟨f, fs, g, b, hr, hdeclare⟩ := exists_declare h
  have hframes : (r.declareLocal i o x d).frames = g :: fs := by
    simp only [declareLocal, hr, hdeclare]
    rfl
  unfold Resolution.declaresHere?
  rw [hframes, hr]
  obtain ⟨function, scopes, next⟩ := f
  cases scopes with
  | nil => cases hdeclare
  | cons scope outer =>
    rw [Frame.declare] at hdeclare
    split_ifs at hdeclare
    · cases hdeclare
    · cases hdeclare
    · cases hdeclare
      exact congrArg some Std.HashMap.contains_insert

theorem lands_sink_iff {k : Kind} (hk : ofKind? k = some sink) :
    Lands r (.node i k o [v]) ↔ ∀ x initializer, sink = .assign x initializer →
      ((visit r v).assigned? x initializer).isSome = true := by
  unfold ofKind? at hk
  split at hk
  · rename_i x value b initializer
    cases hk
    have hown : walker.own r (walker.below r (.node i (.assignment x none value b initializer) o [v]))
        (.node i (.assignment x none value b initializer) o [v]) =
          ((visit r v).assigned? x initializer).map .binding := rfl
    refine ⟨fun h y f heq => ?_, fun h y d value' b' f heq => ?_⟩
    · cases heq
      have hsome := h x none value b initializer rfl
      rwa [hown, isSome_map] at hsome
    · rw [hown, isSome_map]
      exact h x initializer rfl
  · cases hk
    exact ⟨fun _ _ _ => nofun, fun _ _ _ _ _ _ => nofun⟩
  · cases hk

theorem exists_drains_iff :
    (∃ make', r.Drains (fun x => sink.statement x) make') ↔ ∀ x initializer,
      sink = .assign x initializer → (r.assigned? x initializer).isSome = true := by
  constructor
  · rintro ⟨make', hdrains⟩ x initializer rfl
    generalize hmake : (fun y => (Sink.assign x initializer).statement y) = make at hdrains
    have hkind := congrFun hmake 0
    cases hdrains with
    | assignment hassigned =>
      cases hkind
      rw [hassigned]
      rfl
    | returns => cases hkind
  · intro h
    cases sink with
    | assign x initializer =>
      obtain ⟨b, hb⟩ := isSome_iff_exists.mp (h x initializer rfl)
      exact ⟨_, .assignment hb⟩
    | returns => exact ⟨_, .returns⟩

theorem assigned?_visit (hv : v.Fits) (hve : v.kind.isExpression = true) (r : Resolution) (x : String)
    (initializer : Bool) : (visit r v).assigned? x initializer = r.assigned? x initializer := by
  rw [assigned?, lookup_visit hv (declares_of_isExpression hve), assigned?]

theorem walker_mirrors : walker.Mirrors Lands Near Level Drains Meaning.Yields where
  tracks := walker_tracks
  alike {r r' i k k' o us us'} hu hu' hakin hbelow hlevel := by
    rcases hakin with rfl | ⟨ids, ids', rfl, rfl⟩
    · refine forall_congr' fun x => forall_congr' fun d => forall_congr' fun value =>
        forall_congr' fun b => forall_congr' fun f => forall_congr' fun hk => ?_
      obtain rfl : k' = .assignment x d value b f := hk
      cases d with
      | none =>
        rw [walker_below, walker_below] at hbelow ⊢
        simp only [walker, isSome_map]
        exact iff_of_eq (congrArg (·.isSome = true) (hbelow.assigned? x f).symm)
      | some d =>
        obtain ⟨v, rfl, hv, hve⟩ := hu.one rfl
        obtain ⟨v', rfl, hv', hve'⟩ := hu'.one rfl
        have hquiet := declares_of_isExpression hve
        have hquiet' := declares_of_isExpression hve'
        have hinner : (visit r v).Level (visit r' v') := by
          intro y
          rw [((keeps_visit hv r).2 hquiet).declaresHere?, ((keeps_visit hv' r').2 hquiet').declaresHere?]
          exact hlevel (by simp [Scoping.declares]) y
        rw [walker_below, walker_below] at hbelow ⊢
        simp only [walker, isSome_map]
        exact (hinner.isSome_declared?_iff hbelow).symm
    · exact ⟨by rintro _ _ _ _ _ _ ⟨⟩, by rintro _ _ _ _ _ _ ⟨⟩⟩
  branch hk := by
    rintro x d v b f rfl
    cases hk
  block {_ _ _ _ _} := by rintro _ _ _ _ _ ⟨⟩
  takes {r i k make o v} hu hdrains := by
    have hve := hdrains.isExpression hu
    obtain ⟨sink, hk, rfl⟩ := hdrains
    rw [lands_sink_iff hk, exists_drains_iff]
    simp only [assigned?_visit (hu.child v (.head _)) hve]
  gives {r r' i k x make o v} hdrains hvisit := by
    obtain ⟨sink, -, rfl⟩ := hdrains
    rw [lands_sink_iff (ofKind?_statement sink x), exists_drains_iff]
    refine forall_congr' fun y => forall_congr' fun f => forall_congr' fun _ => ?_
    exact iff_of_eq (congrArg (·.isSome = true) (hvisit.assigned? y f))
  steady {r make make' v} hv hve hdrains := by
    cases hdrains with
    | returns => exact .returns
    | assignment hassigned =>
      refine .assignment ?_
      rw [← hassigned]
      exact (assigned?_visit hv hve r _ _).symm
  enter {k sink i o us} hk r := by
    cases k <;> first | rfl | cases hk
  opens {r r' i ids ids' o us us'} hs := by
    intro x
    unfold Resolution.declaresHere?
    rcases (forall₂_iff _ _ _).mp hs.frames with ⟨hr, hr'⟩ | ⟨f, f', fs, fs', -, -, hr, hr'⟩
    · simp only [walker, openScope, modifyTop, hr, hr']
    · simp only [walker, openScope, modifyTop, hr, hr', head?_cons, bind_some]
  quiet {r r' u u'} hu hu' hd hd' hlevel := fun x =>
    (((keeps_visit hu' r').2 hd').declaresHere? x).trans
      ((hlevel x).trans (((keeps_visit hu r).2 hd).declaresHere? x).symm)
  declares {r r' i k o us us'} hu hu' hd hP hP' hlevel := by
    obtain ⟨x, d, value, b, f, rfl⟩ : ∃ x d value b f, k = .assignment x (some d) value b f := by
      unfold Scoping.declares at hd
      split at hd
      · rename_i heq
        exact ⟨_, _, _, _, _, (Unfolding.node.inj heq).2.1⟩
      · exact absurd rfl hd
    obtain ⟨v, rfl, hv, hve⟩ := hu.one rfl
    obtain ⟨v', rfl, hv', hve'⟩ := hu'.one rfl
    have hsome := hP x (some d) value b f rfl
    have hsome' := hP' x (some d) value b f rfl
    rw [walker_below] at hsome hsome'
    simp only [walker, isSome_map] at hsome hsome'
    have hinner := ((keeps_visit hv r).2 (declares_of_isExpression hve)).declaresHere?
    have hinner' := ((keeps_visit hv' r').2 (declares_of_isExpression hve')).declaresHere?
    intro y
    calc (walker.visit r' (.node i (.assignment x (some d) value b f) o [v'])).declaresHere? y
        = ((visit r' v').declaresHere? y).map (x == y || ·) := declaresHere?_declareLocal hsome' y
      _ = ((visit r v).declaresHere? y).map (x == y || ·) := by rw [hinner, hinner', hlevel y]
      _ = _ := (declaresHere?_declareLocal hsome y).symm

end Resolution

end Clausal
