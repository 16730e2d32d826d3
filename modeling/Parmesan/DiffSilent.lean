import Parmesan.DiffScript
import Parmesan.DiffUnify
import Parmesan.IdAssigner

/-!
# When the engine reports nothing

A comparison of two function bodies stays silent exactly when the left body is simulated
by the right one: there is a map of the blocks and a map of the local values under which
every mapped pair of blocks holds equal instructions. The order in which the queue
hands out the blocks plays no part: when a block is taken, a path of finished blocks
leads to it, so whatever dominates it has its values mapped already.
-/

set_option autoImplicit false

namespace Parmesan.DiffSilent
open Parmesan.DiffModel
open Parmesan.DiffSame
open Parmesan.DiffReport
open Parmesan.DiffUnify
open Parmesan.Outcome

/-! ## Runs -/

/-- The search stands so when the blocks `P` are finished: what is mapped is finished or
queued once, and a path of finished blocks leads to it. -/
structure Search (L : Fn) (P : List ℕ) (s : Fde) : Prop where
  entry : s.Blocks 0 = some 0
  queued : ∀ p ∈ s.Queue.toList, s.Blocks p.1 = some p.2 ∧ p.1 ∉ P
  lefts : (s.Queue.toList.map Prod.fst).Nodup
  mapped : ∀ b c, s.Blocks b = some c → b ∈ P ∨ (b, c) ∈ s.Queue.toList
  nodup : P.Nodup
  finished : ∀ b ∈ P, (s.Blocks b).isSome
  paths : ∀ b c, s.Blocks b = some c → ∃ ps, Path L ps b ∧ ∀ p ∈ ps, p ∈ P
  range : ∀ b c, s.Blocks b = some c → b < L.blocks.length

/-- A silent comparison in between two blocks: the finished blocks hold equal instructions
under the maps of the state. -/
structure Progress (L R : Fn) (P : List ℕ) (s : Fde) : Prop extends Search L P s where
  tentative : s.TentativeValues = []
  arguments : ∀ i, s.Values (.arg i) = if i < L.args ∧ i < R.args then some (.arg i) else none
  origin : ∀ o i w, s.Values (.inst o i) = some w → ∃ b ∈ P, Defines L b (.inst o i)
  same : ∀ b ∈ P, ∀ c, s.Blocks b = some c →
    List.Forall₂ (Paired s.Values s.Blocks) (L.block b) (R.block c)

theorem grown_back {xs : List ℕ} {s s' : Fde} (h : Grown xs s s') {b c : ℕ}
    (hc : s'.Blocks b = some c) : s.Blocks b = some c ∨ s.Blocks b = none ∧ b ∈ xs := by
  cases hb : s.Blocks b with
  | none => exact Or.inr ⟨rfl, h.fresh b hb (by rw [hc]; rfl)⟩
  | some d =>
    have hd := h.kept b d hb
    rw [hc] at hd
    exact Or.inl hd.symm

section Progress
variable {sorter : Sorter} {L R : Fn} {P : List ℕ} {s t s' : Fde} {l r : ℕ}
  {rest : Array (ℕ × ℕ)}

theorem search_queue (h : Search L P s) (hq : s.Queue.toList.Perm ((l, r) :: rest.toList))
    (hblocks : t.Blocks = s.Blocks) (hqueue : t.Queue = rest) {xs : List ℕ}
    (hgrown : Grown xs t s') :
    (∀ p ∈ s'.Queue.toList, s'.Blocks p.1 = some p.2 ∧ p.1 ∉ l::P) ∧
      (s'.Queue.toList.map Prod.fst).Nodup := by
  obtain ⟨hlr, -⟩ := h.queued (l, r) (hq.mem_iff.mpr List.mem_cons_self)
  have hnodup : (((l, r) :: rest.toList).map Prod.fst).Nodup := (hq.map _).nodup_iff.mp h.lefts
  rw [List.map_cons, List.nodup_cons] at hnodup
  have hrest : ∀ p ∈ t.Queue.toList, s.Blocks p.1 = some p.2 ∧ p.1 ∉ l::P := by
    intro p hp
    rw [hqueue] at hp
    obtain ⟨hb, hP⟩ := h.queued p (hq.mem_iff.mpr (List.mem_cons_of_mem _ hp))
    refine ⟨hb, fun hmem => ?_⟩
    obtain heq | hmem := List.mem_cons.mp hmem
    · exact hnodup.1 (List.mem_map.mpr ⟨p, hp, heq⟩)
    · exact hP hmem
  constructor
  · rintro ⟨b, c⟩ hp
    obtain hp | ⟨hnone, hc⟩ := (hgrown.queued b c).mp hp
    · obtain ⟨hb, hP⟩ := hrest (b, c) hp
      exact ⟨hgrown.kept b c (hblocks ▸ hb), hP⟩
    · rw [hblocks] at hnone
      refine ⟨hc, fun hmem => ?_⟩
      obtain rfl | hmem := List.mem_cons.mp hmem
      · rw [hlr] at hnone
        cases hnone
      · have hsome := h.finished b hmem
        rw [hnone] at hsome
        cases hsome
  · refine hgrown.nodup (fun p hp => ?_) (by rw [hqueue]; exact hnodup.2)
    rw [hblocks, (hrest p hp).1]
    rfl

theorem search_step (hL : WellFormed L) (h : Search L P s)
    (hq : s.Queue.toList.Perm ((l, r) :: rest.toList)) (hblocks : t.Blocks = s.Blocks)
    (hqueue : t.Queue = rest)
    (hgrown : Grown ((L.block l).flatMap fun i => i.body.successors) t s') :
    Search L (l::P) s' := by
  obtain ⟨hlr, hlP⟩ := h.queued (l, r) (hq.mem_iff.mpr List.mem_cons_self)
  have hkept : ∀ b c, s.Blocks b = some c → s'.Blocks b = some c := by
    rw [← hblocks]
    exact hgrown.kept
  have hback : ∀ b c, s'.Blocks b = some c → s.Blocks b = some c ∨
      s.Blocks b = none ∧ ∃ i ∈ L.block l, b ∈ i.body.successors := by
    intro b c hc
    rw [← hblocks, ← List.mem_flatMap]
    exact grown_back hgrown hc
  obtain ⟨hqueued, hlefts⟩ := search_queue h hq hblocks hqueue hgrown
  refine ⟨hkept 0 0 h.entry, hqueued, hlefts, ?_, List.nodup_cons.mpr ⟨hlP, h.nodup⟩, ?_, ?_, ?_⟩
  · intro b c hc
    obtain hold | ⟨hnone, -⟩ := hback b c hc
    · obtain hb | hb := h.mapped b c hold
      · exact Or.inl (List.mem_cons_of_mem l hb)
      · obtain heq | hb := List.mem_cons.mp (hq.mem_iff.mp hb)
        · cases heq
          exact Or.inl List.mem_cons_self
        · exact Or.inr ((hgrown.queued b c).mpr (Or.inl (hqueue ▸ hb)))
    · exact Or.inr ((hgrown.queued b c).mpr (Or.inr ⟨hblocks ▸ hnone, hc⟩))
  · intro b hb
    obtain rfl | hb := List.mem_cons.mp hb
    · rw [hkept b r hlr]
      rfl
    · obtain ⟨c, hc⟩ := Option.isSome_iff_exists.mp (h.finished b hb)
      rw [hkept b c hc]
      rfl
  · intro b c hc
    obtain hold | ⟨-, i, hi, hb⟩ := hback b c hc
    · obtain ⟨ps, hpath, hps⟩ := h.paths b c hold
      exact ⟨ps, hpath, fun p hp => List.mem_cons_of_mem l (hps p hp)⟩
    · obtain ⟨ps, hpath, hps⟩ := h.paths l r hlr
      refine ⟨l::ps, hpath.step hi hb, fun p hp => ?_⟩
      obtain rfl | hp := List.mem_cons.mp hp
      · exact List.mem_cons_self
      · exact List.mem_cons_of_mem l (hps p hp)
  · intro b c hc
    obtain hold | ⟨-, i, hi, hb⟩ := hback b c hc
    · exact h.range b c hold
    · exact hL.targets l i hi b hb

theorem paired_mono {sigma sigma' : Local → Option Local} {rho rho' : ℕ → Option ℕ}
    (hs : ∀ v w, sigma v = some w → sigma' v = some w)
    (hr : ∀ b c, rho b = some c → rho' b = some c) {i j : Instruction}
    (h : Paired sigma rho i j) : Paired sigma' rho' i j := by
  refine ⟨same_body_mono h.1 (fun a _ b hab => ?_) fun x _ y hy => hr x y hy,
    fun hu => hs _ _ (h.2 hu)⟩
  exact same_operand_mono hab fun v _ w hvw => hs v w hvw

theorem progress_fresh (hL : WellFormed L) (h : Progress L R P s) (hl : l ∉ P) :
    ∀ i ∈ L.block l, s.Values i.value = none := by
  intro i hi
  by_contra hne
  obtain ⟨w, hw⟩ := Option.ne_none_iff_exists'.mp hne
  obtain ⟨b, hb, j, hj, hjv, -⟩ := h.origin _ _ w hw
  exact hl (defined_once hL hj hi hjv ▸ hb)

/-- Finishing one block: `t` is `s` without the pair that was taken. -/
theorem progress_step (hL : WellFormed L) (h : Progress L R P s)
    (hq : s.Queue.toList.Perm ((l, r) :: rest.toList)) (hblocks : t.Blocks = s.Blocks)
    (hvalues : t.Values = s.Values) (hqueue : t.Queue = rest)
    (hall : AllUnified t s' (L.block l) (R.block r)) : Progress L R (l::P) s' := by
  obtain ⟨hlr, -⟩ := h.queued (l, r) (hq.mem_iff.mpr List.mem_cons_self)
  have hsearch := search_step hL h.toSearch hq hblocks hqueue hall.grown
  have hkept : ∀ b c d, s.Blocks b = some d → s'.Blocks b = some c → d = c := by
    intro b c d hd hc
    have heq := hall.grown.kept b d (hblocks ▸ hd)
    rw [hc] at heq
    exact (Option.some.inj heq).symm
  refine ⟨hsearch, hall.tentative, fun i => ?_, fun o i w hw => ?_, fun b hb c hc => ?_⟩
  · rw [← h.arguments i]
    cases hv : s.Values (.arg i) with
    | some w => exact hall.kept _ w (hvalues ▸ hv)
    | none =>
      by_contra hne
      obtain ⟨w, hw⟩ := Option.ne_none_iff_exists'.mp hne
      obtain hold | ⟨j, -, hj, -⟩ := hall.only _ w hw
      · rw [hvalues, hv] at hold
        cases hold
      · cases hj
  · obtain hold | ⟨j, hj, hjv, hju⟩ := hall.only _ w hw
    · rw [hvalues] at hold
      obtain ⟨b, hb, hdef⟩ := h.origin o i w hold
      exact ⟨b, List.mem_cons_of_mem l hb, hdef⟩
    · exact ⟨l, List.mem_cons_self, j, hj, hjv, hju⟩
  · obtain rfl | hb := List.mem_cons.mp hb
    · rw [← hkept b c r hlr hc]
      exact hall.same
    · obtain ⟨d, hd⟩ := Option.isSome_iff_exists.mp (h.finished b hb)
      obtain rfl := hkept b c d hd hc
      refine (h.same b hb d hd).imp fun i j hij => ?_
      exact paired_mono (fun v w hv => hall.kept v w (hvalues ▸ hv))
        (fun x y hx => hall.grown.kept x y (hblocks ▸ hx)) hij

theorem terminated_front {sigma : Local → Option Local} {rho : ℕ → Option ℕ}
    {ls front tail : Block} (hl : Terminated ls) (hr : Terminated (front ++ tail))
    (hall : List.Forall₂ (Paired sigma rho) ls front) : tail = [] := by
  obtain ⟨init, last, rfl, hlast, -⟩ := hl
  have hrev := List.forall₂_reverse_iff.mpr hall
  rw [List.reverse_append, List.reverse_singleton, List.singleton_append] at hrev
  obtain ⟨x, before, hx, -, hfront⟩ := List.forall₂_cons_left_iff.mp hrev
  have hterm : isTerminator x.body.opcode = true := same_body_opcode hx.1 ▸ hlast
  obtain rfl : front = before.reverse ++ [x] := by
    rw [← List.reverse_reverse front, hfront, List.reverse_cons]
  cases tail using List.reverseRecOn with
  | nil => rfl
  | append_singleton tail z =>
    obtain ⟨rinit, rlast, hsplit, -, hinit⟩ := hr
    rw [← List.append_assoc] at hsplit
    have hmem : x ∈ rinit := by
      rw [← List.append_inj_left' hsplit rfl]
      simp
    rw [hinit x hmem] at hterm
    cases hterm

theorem block_cases (f : Fn) (b : ℕ) : b < f.blocks.length ∨ f.block b = [] := by
  obtain h | h := Nat.lt_or_ge b f.blocks.length
  · exact Or.inl h
  · refine Or.inr ?_
    unfold Fn.block
    rw [List.getD_eq_getElem?_getD, List.getElem?_eq_none h]
    rfl

theorem diff_block_cases (h : diffBlock sorter L R s l r = .ok s') :
    ∃ d t, scan sorter (s.tell (.enterContext (.block L.name l) (.block R.name r)))
        (L.block l) (R.block r) = .ok d ∧ s' = t.tell .exitContext ∧
      (d.1 = true ∧ runBlockDiff sorter L R { d.2 with TentativeValues := [] } (L.block l)
          (R.block r) = .ok t ∨
        d.1 = false ∧ unifyAll sorter L R { d.2 with TentativeValues := [] } (L.block l)
          (R.block r) = .ok t) := by
  unfold diffBlock at h
  simp only at h
  cases hscan : scan sorter (s.tell (.enterContext (.block L.name l) (.block R.name r)))
      (L.block l) (R.block r) with
  | error f =>
    rw [hscan] at h
    cases h
  | ok d =>
    rw [hscan] at h
    replace h : Except.map (fun t : Fde => t.tell .exitContext)
        (if d.1 = true then
          runBlockDiff sorter L R { d.2 with TentativeValues := [] } (L.block l) (R.block r)
        else unifyAll sorter L R { d.2 with TentativeValues := [] } (L.block l) (R.block r)) =
          .ok s' := h
    split_ifs at h with hd
    · cases hrun : runBlockDiff sorter L R { d.2 with TentativeValues := [] } (L.block l)
          (R.block r) with
      | error f =>
        rw [hrun] at h
        cases h
      | ok t =>
        rw [hrun] at h
        cases h
        exact ⟨d, t, rfl, rfl, Or.inl ⟨hd, hrun⟩⟩
    · cases hrun : unifyAll sorter L R { d.2 with TentativeValues := [] } (L.block l)
          (R.block r) with
      | error f =>
        rw [hrun] at h
        cases h
      | ok t =>
        rw [hrun] at h
        cases h
        exact ⟨d, t, rfl, rfl, Or.inr ⟨by simpa using hd, hrun⟩⟩

theorem run_block_diff_loud {t : Fde} {Lb Rb : Block}
    (h : runBlockDiff sorter L R s Lb Rb = .ok t) : ¬ Silent t.events := by
  intro hs
  obtain ⟨-, hempty⟩ | ⟨-, hlines⟩ := DiffScript.run_block_diff_replays sorter L R s Lb Rb
  · rw [hempty] at h
    cases h
  · obtain ⟨lines, told, htold, -⟩ := ensures_value hlines h
    rw [htold, silent_cons] at hs
    cases hs.1

theorem progress_tell (h : Progress L R P s) (e : Event) : Progress L R P (s.tell e) :=
  ⟨⟨h.entry, h.queued, h.lefts, h.mapped, h.nodup, h.finished, h.paths, h.range⟩, h.tentative,
    h.arguments, h.origin, h.same⟩

theorem diff_block_silent (hL : WellFormed L)
    (hR : ∀ c < R.blocks.length, Terminated (R.block c)) (h : Progress L R P s)
    (hq : s.Queue.toList.Perm ((l, r) :: rest.toList))
    (hrun : diffBlock sorter L R { s with Queue := rest } l r = .ok s')
    (hs : Silent s'.events) : Progress L R (l::P) s' := by
  obtain ⟨hlr, hlP⟩ := h.queued (l, r) (hq.mem_iff.mpr List.mem_cons_self)
  obtain ⟨d, t, hscan, rfl, ⟨-, hblock⟩ | ⟨-, hunify⟩⟩ := diff_block_cases hrun
  · rw [Fde.tell_events, silent_cons] at hs
    exact absurd hs.2 (run_block_diff_loud hblock)
  · rw [Fde.tell_events, silent_cons] at hs
    have hd := scan_untouched sorter (L.block l) (R.block r) _ hscan
    have hfresh : ∀ i ∈ L.block l, d.2.Values i.value = none := by
      rw [show d.2.Values = s.Values from hd.values]
      exact progress_fresh hL h hlP
    obtain ⟨front, tail, hsplit, hall⟩ := unify_all_silent sorter L R _ _ _ _ hunify hs.2 rfl
      hfresh (block_distinct hL l) (hL.closed l) (hL.cases l)
    have htail : tail = [] := by
      obtain hr | hr := block_cases R r
      · exact terminated_front (hL.terminated l (h.range l r hlr)) (hsplit ▸ hR r hr) hall.same
      · rw [hr] at hsplit
        exact (List.append_eq_nil_iff.mp hsplit.symm).2
    rw [htail, List.append_nil] at hsplit
    exact progress_tell (progress_step (t := { d.2 with TentativeValues := [] }) hL h hq hd.blocks
      hd.values hd.queue (hsplit ▸ hall)) _

theorem diff_block_agrees (sorter : Sorter) {rho : ℕ → Option ℕ}
    {sigma : Local → Option Local} (hL : WellFormed L) (hsim : Simulates L R rho sigma)
    (h : Progress L R P s) (hw : Within rho sigma s)
    (hq : s.Queue.toList.Perm ((l, r) :: rest.toList)) :
    ∃ s', diffBlock sorter L R { s with Queue := rest } l r = .ok s' ∧ Within rho sigma s' ∧
      Progress L R (l::P) s' ∧ (Silent s.events → Silent s'.events) := by
  obtain ⟨hlr, hlP⟩ := h.queued (l, r) (hq.mem_iff.mpr List.mem_cons_self)
  have hall := hsim.blocks l r (hw.blocks l r hlr)
  -- what dominates the block is finished, so its values are mapped
  have hready : Ready L sigma l 0
      (Fde.tell { s with Queue := rest } (.enterContext (.block L.name l) (.block R.name r))) := by
    intro v w hv hvw
    cases v with
    | arg i =>
      have hi : i < L.args := hv
      have harg := h.arguments i
      rw [if_pos ⟨hi, hsim.args ▸ hi⟩] at harg
      rw [hsim.arguments i hi] at hvw
      cases hvw
      exact harg
    | inst o i =>
      obtain ⟨j, hj, -⟩ | hdom := hv
      · simp at hj
      · obtain ⟨ps, hpath, hps⟩ := h.paths l r hlr
        obtain ⟨b, hb, j, hj, hjv, hju⟩ := hdom ps hpath
        obtain ⟨c, hc⟩ := Option.isSome_iff_exists.mp (h.finished b (hps b hb))
        obtain ⟨x, hx⟩ := forall₂_exists (h.same b (hps b hb) c hc) hj
        have hvalue := hx.2 hju
        rw [hjv] at hvalue
        have hsigma := hw.values _ _ hvalue
        rw [hvw] at hsigma
        cases hsigma
        exact Or.inl hvalue
  have hne : L.block l ≠ [] := by
    obtain ⟨init, last, hinit, -⟩ := hL.terminated l (h.range l r hlr)
    simp [hinit]
  obtain ⟨t, hscan⟩ := scan_agrees sorter hL (L.block l) (R.block r) 0 _ rfl hne hall hready
  have ht := scan_untouched sorter (L.block l) (R.block r) _ hscan
  have hready' : Ready L sigma l 0 { t with TentativeValues := [] } := by
    intro v w hv hvw
    have hknown := hready v w hv hvw
    rw [ht.values]
    rwa [show (Fde.tell { s with Queue := rest } _).TentativeValues = [] from h.tentative] at hknown
  have hw' : Within rho sigma { t with TentativeValues := [] } := by
    refine ⟨fun b c hb => ?_, fun v w hv => ?_⟩
    · exact hw.blocks b c (ht.blocks ▸ hb)
    · exact hw.values v w (ht.values ▸ hv)
  have hfresh : ∀ i ∈ L.block l, t.Values i.value = none := by
    rw [show t.Values = s.Values from ht.values]
    exact progress_fresh hL h hlP
  obtain ⟨u, hunify, hunified, hwithin⟩ := unify_all_agrees sorter hL (L.block l) (R.block r) 0 _
    rfl hall hready' hw' rfl hfresh
  refine ⟨u.tell .exitContext, ?_, ⟨hwithin.blocks, hwithin.values⟩,
    progress_tell (progress_step (t := { t with TentativeValues := [] }) hL h hq ht.blocks
      ht.values ht.queue hunified) _, fun hs => ?_⟩
  · unfold diffBlock
    simp only [hscan]
    show Except.map _ (unifyAll sorter L R { t with TentativeValues := [] } _ _) = _
    rw [hunify]
    rfl
  · rw [Fde.tell_events, silent_cons]
    refine ⟨rfl, hunified.events ?_⟩
    rw [show _ = _ from ht.events, Fde.tell_events, silent_cons]
    exact ⟨rfl, hs⟩

theorem process_queue_silent (hL : WellFormed L)
    (hR : ∀ c < R.blocks.length, Terminated (R.block c)) (fuel : ℕ) (P : List ℕ) (s : Fde)
    (h : Progress L R P s) (hrun : processQueue sorter L R fuel s = .ok s')
    (hs : Silent s'.events) : ∃ P', Progress L R P' s' ∧ s'.Queue.toList = [] := by
  induction fuel generalizing P s with
  | zero =>
    rw [processQueue] at hrun
    cases hpop : DiffQueue.removeMin (sorter s) true s.Queue with
    | none =>
      rw [hpop] at hrun
      cases hrun
      exact ⟨P, h, DiffQueue.remove_min_none hpop⟩
    | some p =>
      rw [hpop] at hrun
      cases hrun
  | succ fuel ih =>
    rw [processQueue] at hrun
    cases hpop : DiffQueue.removeMin (sorter s) true s.Queue with
    | none =>
      rw [hpop] at hrun
      cases hrun
      exact ⟨P, h, DiffQueue.remove_min_none hpop⟩
    | some p =>
      obtain ⟨⟨l, r⟩, rest⟩ := p
      rw [hpop] at hrun
      have hperm := DiffQueue.remove_min_perm hpop
      cases hblock : diffBlock sorter L R { s with Queue := rest } l r with
      | error f =>
        simp only [hblock] at hrun
        cases hrun
      | ok t =>
        simp only [hblock] at hrun
        replace hrun : processQueue sorter L R fuel t = .ok s' := hrun
        have htold : Told t.events s'.events :=
          ensures_value (r := processQueue sorter L R fuel t)
            (process_queue_told sorter L R fuel t) hrun
        have ht := diff_block_silent hL hR h hperm hblock (silent_of_told htold hs)
        exact ih (l::P) t ht hrun

theorem search_bound (h : Search L P s) : P.length+s.Queue.toList.length ≤ L.blocks.length := by
  have hnodup : (P ++ s.Queue.toList.map Prod.fst).Nodup := by
    refine List.nodup_append.mpr ⟨h.nodup, h.lefts, fun a ha b hb hab => ?_⟩
    obtain ⟨p, hp, rfl⟩ := List.mem_map.mp hb
    exact (h.queued p hp).2 (hab ▸ ha)
  have hsub : P ++ s.Queue.toList.map Prod.fst ⊆ List.range L.blocks.length := by
    intro b hb
    rw [List.mem_range]
    obtain hb | hb := List.mem_append.mp hb
    · obtain ⟨c, hc⟩ := Option.isSome_iff_exists.mp (h.finished b hb)
      exact h.range b c hc
    · obtain ⟨p, hp, rfl⟩ := List.mem_map.mp hb
      exact h.range p.1 p.2 (h.queued p hp).1
  have hle := (List.subperm_of_subset hnodup hsub).length_le
  simpa using hle

theorem process_queue_agrees (sorter : Sorter) {rho : ℕ → Option ℕ}
    {sigma : Local → Option Local} (hL : WellFormed L) (hsim : Simulates L R rho sigma)
    (fuel : ℕ) (P : List ℕ) (s : Fde) (h : Progress L R P s) (hw : Within rho sigma s)
    (hfuel : L.blocks.length ≤ fuel+P.length)
    (hs : Silent s.events) :
    ∃ s', processQueue sorter L R fuel s = .ok s' ∧ Silent s'.events := by
  induction fuel generalizing P s with
  | zero =>
    rw [processQueue]
    cases hpop : DiffQueue.removeMin (sorter s) true s.Queue with
    | none => exact ⟨s, rfl, hs⟩
    | some p =>
      have hbound := search_bound h.toSearch
      obtain ⟨b, rest⟩ := p
      have hlen := (DiffQueue.remove_min_perm hpop).length_eq
      rw [List.length_cons] at hlen
      omega
  | succ fuel ih =>
    rw [processQueue]
    cases hpop : DiffQueue.removeMin (sorter s) true s.Queue with
    | none => exact ⟨s, rfl, hs⟩
    | some p =>
      obtain ⟨⟨l, r⟩, rest⟩ := p
      obtain ⟨t, hblock, hw', ht, hst⟩ := diff_block_agrees sorter hL hsim h hw
        (DiffQueue.remove_min_perm hpop)
      obtain ⟨s', hrun, hs'⟩ := ih (l::P) t ht hw' (by rw [List.length_cons]; omega) (hst hs)
      refine ⟨s', ?_, hs'⟩
      simp only [hblock]
      exact hrun

end Progress

/-! ## Functions and modules -/

section Functions
variable {sorter : Sorter} {L R : Fn}

def startOf (sorter : Sorter) (L R : Fn) (events : List Event) : Fde :=
  tryUnify sorter (mapArguments L R (newFde events)) 0 0

theorem start_facts (sorter : Sorter) (L R : Fn) (events : List Event) :
    (startOf sorter L R events).events = events ∧
      (startOf sorter L R events).Values = (mapArguments L R (newFde events)).Values ∧
      (startOf sorter L R events).TentativeValues = [] ∧
      (∀ b c, (startOf sorter L R events).Blocks b = some c ↔ b = 0 ∧ c = 0) ∧
      ∀ b c, (b, c) ∈ (startOf sorter L R events).Queue.toList ↔ b = 0 ∧ c = 0 := by
  obtain ⟨hgrown, hset, haside, hevents⟩ := try_unify_fits sorter (mapArguments L R (newFde events))
    0 0 (fun c hc => by cases hc)
  have hblocks : ∀ b c, (startOf sorter L R events).Blocks b = some c ↔ b = 0 ∧ c = 0 := by
    intro b c
    constructor
    · intro hc
      obtain hold | ⟨-, hb⟩ := grown_back hgrown hc
      · cases hold
      · obtain rfl := List.mem_singleton.mp hb
        rw [startOf, hset] at hc
        exact ⟨rfl, (Option.some.inj hc).symm⟩
    · rintro ⟨rfl, rfl⟩
      exact hset
  refine ⟨hevents, haside.values, haside.tentative, hblocks, fun b c => ?_⟩
  rw [startOf, hgrown.queued]
  constructor
  · rintro (hq | ⟨-, hc⟩)
    · exact absurd hq List.not_mem_nil
    · exact (hblocks b c).mp hc
  · exact fun hbc => Or.inr ⟨rfl, (hblocks b c).mpr hbc⟩

theorem start_progress (hL : WellFormed L) (events : List Event) :
    Progress L R [] (startOf sorter L R events) := by
  obtain ⟨-, hvalues, htent, hblocks, hqueue⟩ := start_facts sorter L R events
  refine ⟨⟨(hblocks 0 0).mpr ⟨rfl, rfl⟩, ?_, ?_, ?_, List.nodup_nil, by simp, ?_, ?_⟩, htent,
    ?_, ?_, by simp⟩
  · rintro ⟨b, c⟩ hp
    exact ⟨(hblocks b c).mpr ((hqueue b c).mp hp), List.not_mem_nil⟩
  · obtain ⟨hgrown, -⟩ := try_unify_fits sorter (mapArguments L R (newFde events)) 0 0
      (fun c hc => by cases hc)
    refine hgrown.nodup ?_ List.nodup_nil
    intro p hp
    exact absurd hp List.not_mem_nil
  · exact fun b c hc => Or.inr ((hqueue b c).mpr ((hblocks b c).mp hc))
  · intro b c hc
    obtain ⟨rfl, -⟩ := (hblocks b c).mp hc
    exact ⟨[], Path.entry, by simp⟩
  · intro b c hc
    obtain ⟨rfl, -⟩ := (hblocks b c).mp hc
    exact hL.entry
  · intro i
    rw [hvalues]
    rfl
  · intro o i w hw
    rw [hvalues] at hw
    cases hw

/-- The finished maps of a silent comparison are a simulation. -/
theorem progress_simulates {P : List ℕ} {s : Fde} (h : Progress L R P s)
    (hempty : s.Queue.toList = []) (hargs : L.args = R.args) :
    Simulates L R s.Blocks s.Values where
  args := hargs
  entry := h.entry
  arguments := by
    intro i hi
    rw [h.arguments i, if_pos ⟨hi, hargs ▸ hi⟩]
  blocks := by
    intro b c hc
    obtain hb | hq := h.mapped b c hc
    · exact h.same b hb c hc
    · rw [hempty] at hq
      exact absurd hq List.not_mem_nil

theorem bodies_silent (hL : WellFormed L) (hR : ∀ c < R.blocks.length, Terminated (R.block c))
    (events : List Event) {s : Fde} (h : diffBodies sorter L R events = .ok s)
    (hs : Silent s.events) : ∃ rho sigma, Simulates L R rho sigma := by
  by_cases hargs : L.args = R.args
  · replace h : processQueue sorter L R L.blocks.length (startOf sorter L R events) = .ok s := by
      unfold diffBodies at h
      simpa [hargs, startOf] using h
    obtain ⟨P, hP, hempty⟩ := process_queue_silent hL hR _ [] _ (start_progress hL events) h hs
    exact ⟨_, _, progress_simulates hP hempty hargs⟩
  · exfalso
    have htold : Told (.log "different argument counts" :: events) s.events := by
      unfold diffBodies at h
      simp only [ne_eq, hargs, not_false_eq_true, if_true] at h
      have hfirst := try_unify_told sorter
        (mapArguments L R ((newFde events).tell (.log "different argument counts"))) 0 0
      have hrest : Told _ s.events := ensures_value (r := processQueue sorter L R L.blocks.length _)
        (process_queue_told sorter L R L.blocks.length _) h
      exact told_trans hfirst hrest
    have hlog := silent_of_told htold hs
    rw [silent_cons] at hlog
    cases hlog.1

theorem bodies_agree (sorter : Sorter) (hL : WellFormed L) {rho : ℕ → Option ℕ}
    {sigma : Local → Option Local} (hsim : Simulates L R rho sigma) (events : List Event)
    (hs : Silent events) :
    ∃ s, diffBodies sorter L R events = .ok s ∧ Silent s.events := by
  obtain ⟨hevents, hvalues, -, hblocks, -⟩ := start_facts sorter L R events
  have hw : Within rho sigma (startOf sorter L R events) := by
    refine ⟨fun b c hc => ?_, fun v w hv => ?_⟩
    · obtain ⟨rfl, rfl⟩ := (hblocks b c).mp hc
      exact hsim.entry
    · rw [hvalues] at hv
      cases v with
      | inst o i => cases hv
      | arg i =>
        replace hv : (if i < L.args ∧ i < R.args then some (Local.arg i) else none) = some w := hv
        split_ifs at hv with hi
        cases hv
        exact hsim.arguments i hi.1
  obtain ⟨s, hrun, hsilent⟩ := process_queue_agrees sorter hL hsim L.blocks.length [] _
    (start_progress hL events) hw (by simp) (hevents.symm ▸ hs)
  refine ⟨s, ?_, hsilent⟩
  unfold diffBodies
  simpa [hsim.args, startOf] using hrun

/-- Two functions the engine has nothing to say about: two declarations, or two bodies of
which the right one simulates the left one. -/
def SameFunctions (L R : Fn) : Prop :=
  (L.blocks = [] ∧ R.blocks = []) ∨
    (L.blocks ≠ [] ∧ R.blocks ≠ [] ∧ ∃ rho sigma, Simulates L R rho sigma)

theorem functions_silent_iff (sorter : Fn → Sorter) (L R : Fn) (events : List Event)
    (hL : L.blocks ≠ [] → WellFormed L) (hR : ∀ c < R.blocks.length, Terminated (R.block c))
    (hs : Silent events) :
    (∃ es, diffFunctions sorter events L R = .ok es ∧ Silent es) ↔ SameFunctions L R := by
  have hopen : Silent (.enterContext (.function L.name) (.function R.name) :: events) :=
    silent_cons.mpr ⟨rfl, hs⟩
  unfold diffFunctions SameFunctions
  simp only
  by_cases hl : L.blocks = []
  · by_cases hr : R.blocks = []
    · simp only [hl, hr, and_self, if_true, true_or, iff_true]
      exact ⟨_, rfl, silent_cons.mpr ⟨rfl, hopen⟩⟩
    · simp only [hl, hr, and_false, if_false, if_true, ne_eq, not_true_eq_false, false_and, or_self,
        iff_false]
      rintro ⟨es, h, hsilent⟩
      cases h
      rw [silent_cons, silent_cons] at hsilent
      cases hsilent.2.1
  · by_cases hr : R.blocks = []
    · simp only [hl, hr, false_and, if_false, if_true, ne_eq, not_true_eq_false, and_false, or_self,
        iff_false]
      rintro ⟨es, h, hsilent⟩
      cases h
      rw [silent_cons, silent_cons] at hsilent
      cases hsilent.2.1
    · simp only [hl, hr, and_self, if_false, ne_eq, not_false_eq_true, true_and, false_or]
      constructor
      · rintro ⟨es, h, hsilent⟩
        cases hbodies : diffBodies (sorter L) L R
            (.enterContext (.function L.name) (.function R.name) :: events) with
        | error f =>
          rw [hbodies] at h
          cases h
        | ok s =>
          rw [hbodies] at h
          cases h
          exact bodies_silent (hL hl) hR _ hbodies (silent_cons.mp hsilent).2
      · rintro ⟨rho, sigma, hsim⟩
        obtain ⟨s, hbodies, hsilent⟩ := bodies_agree (sorter L) (hL hl) hsim _ hopen
        refine ⟨.exitContext :: s.events, ?_, silent_cons.mpr ⟨rfl, hsilent⟩⟩
        rw [hbodies]
        rfl

end Functions

section Modules
variable (sorter : Fn → Sorter) (L R : List Fn)

/-- Both modules have the same function names, and functions of one name are the same. -/
structure SameModules (L R : List Fn) : Prop where
  left : ∀ f ∈ L, ∃ g, getFunction R f.name = some g ∧ SameFunctions f g
  right : ∀ g ∈ R, g.name ∈ L.map Fn.name

structure Verified (L R : List Fn) : Prop where
  left : ∀ f ∈ L, f.blocks ≠ [] → WellFormed f
  right : ∀ g ∈ R, ∀ c < g.blocks.length, Terminated (g.block c)

theorem get_function_mem {m : List Fn} {name : String} {g : Fn}
    (h : getFunction m name = some g) : g ∈ m := by
  unfold getFunction at h
  split_ifs at h
  exact List.mem_of_find?_eq_some h

theorem pairs_silent_iff (Queue : List (Fn × Fn)) (events : List Event)
    (hL : ∀ p ∈ Queue, p.1.blocks ≠ [] → WellFormed p.1)
    (hR : ∀ p ∈ Queue, ∀ c < p.2.blocks.length, Terminated (p.2.block c)) :
    (∃ es, Queue.foldlM (fun events p => diffFunctions sorter events p.1 p.2) events = .ok es ∧
      Silent es) ↔ Silent events ∧ ∀ p ∈ Queue, SameFunctions p.1 p.2 := by
  induction Queue generalizing events with
  | nil =>
    simp only [List.foldlM_nil, List.not_mem_nil, false_implies, implies_true, and_true]
    constructor
    · rintro ⟨es, h, hs⟩
      cases h
      exact hs
    · exact fun hs => ⟨events, rfl, hs⟩
  | cons p Queue ih =>
    have hL' := fun q hq => hL q (List.mem_cons_of_mem p hq)
    have hR' := fun q hq => hR q (List.mem_cons_of_mem p hq)
    have hone := fun hs => functions_silent_iff sorter p.1 p.2 events (hL p List.mem_cons_self)
      (hR p List.mem_cons_self) hs
    rw [List.foldlM_cons, List.forall_mem_cons]
    constructor
    · rintro ⟨es, h, hs⟩
      cases hp : diffFunctions sorter events p.1 p.2 with
      | error f =>
        rw [hp] at h
        cases h
      | ok mid =>
        rw [hp] at h
        obtain ⟨hmid, hall⟩ := (ih mid hL' hR').mp ⟨es, h, hs⟩
        have htold : Told events mid := ensures_value (r := diffFunctions sorter events p.1 p.2)
          (diff_functions_told sorter events p.1 p.2) hp
        have hevents := silent_of_told htold hmid
        exact ⟨hevents, (hone hevents).mp ⟨mid, hp, hmid⟩, hall⟩
    · rintro ⟨hs, hp, hall⟩
      obtain ⟨mid, hmid, hsilent⟩ := (hone hs).mpr hp
      obtain ⟨es, h, hes⟩ := (ih mid hL' hR').mpr ⟨hsilent, hall⟩
      refine ⟨es, ?_, hes⟩
      rw [hmid]
      exact h

theorem fold_silent_iff {α : Type} (ok : α → Prop) [DecidablePred ok] (text : String)
    (xs : List α) (es : List Event) :
    Silent (xs.foldl (fun events x => if ok x then events else .log text :: events) es) ↔
      Silent es ∧ ∀ x ∈ xs, ok x := by
  induction xs generalizing es with
  | nil => simp
  | cons x xs ih =>
    rw [List.foldl_cons, ih, List.forall_mem_cons]
    by_cases hx : ok x
    · simp [hx]
    · simp only [hx, if_false, silent_cons, false_and, and_false, iff_false]
      rintro ⟨⟨h, -⟩, -⟩
      cases h

theorem diff_modules_silent_iff (hv : Verified L R) :
    (∃ es, diffModules sorter L R = .ok es ∧ Silent es) ↔ SameModules L R := by
  have hmem : ∀ p : Fn × Fn, p ∈ (L.filterMap fun f => (getFunction R f.name).map fun g => (f, g)) ↔
      p.1 ∈ L ∧ getFunction R p.1.name = some p.2 := by
    intro p
    rw [List.mem_filterMap]
    constructor
    · rintro ⟨f, hf, hp⟩
      obtain ⟨g, hg, rfl⟩ := Option.map_eq_some_iff.mp hp
      exact ⟨hf, hg⟩
    · rintro ⟨hf, hg⟩
      exact ⟨p.1, hf, by rw [hg]; rfl⟩
  unfold diffModules
  simp only
  rw [pairs_silent_iff sorter _ _
    (fun p hp => hv.left p.1 ((hmem p).mp hp).1)
    (fun p hp => hv.right p.2 (get_function_mem ((hmem p).mp hp).2)),
    fold_silent_iff (fun f : Fn => f.name ∈ L.map Fn.name),
    fold_silent_iff (fun f : Fn => (getFunction R f.name).isSome = true)]
  constructor
  · rintro ⟨⟨⟨-, hleft⟩, hright⟩, hpairs⟩
    refine ⟨fun f hf => ?_, hright⟩
    obtain ⟨g, hg⟩ := Option.isSome_iff_exists.mp (hleft f hf)
    exact ⟨g, hg, hpairs (f, g) ((hmem (f, g)).mpr ⟨hf, hg⟩)⟩
  · intro h
    refine ⟨⟨⟨by simp [Silent], fun f hf => ?_⟩, h.right⟩, fun p hp => ?_⟩
    · obtain ⟨g, hg, -⟩ := h.left f hf
      rw [hg]
      rfl
    · obtain ⟨hf, hg⟩ := (hmem p).mp hp
      obtain ⟨g, hg', hsame⟩ := h.left p.1 hf
      rw [hg] at hg'
      cases hg'
      exact hsame

theorem silent_not_logged {es : List Event} (hs : Silent es) (p : Place) : ¬ LoggedIn p es := by
  rintro ⟨later, e, earlier, rfl, he, -⟩
  rw [hs e (by simp)] at he
  cases he

/-- Under every order of the queue the tool reports nothing, records no changed block and
gives the fuzzer no target exactly when the right module simulates the left one function
by function. -/
theorem modules_silent_iff (hv : Verified L R) (lookup : String × ℕ → ℕ) :
    (∃ es c, diffModules sorter L R = .ok es ∧ Silent es ∧ consume lookup es = some c ∧
      hadDifferences c = false ∧ c.DiffIdSet = ∅ ∧
      ∀ cmpMap, IdAssigner.targets cmpMap c.DiffIdSet = ∅) ↔ SameModules L R := by
  rw [← diff_modules_silent_iff sorter L R hv]
  constructor
  · rintro ⟨es, c, hrun, hs, -⟩
    exact ⟨es, hrun, hs⟩
  · rintro ⟨es, hrun, hs⟩
    obtain ⟨seg, hb, hes⟩ := ensures_value (diff_modules_told sorter L R) hrun
    obtain rfl : es = seg := by simpa using hes
    have hsome := balanced_consume hb lookup [] rfl
    rw [List.append_nil] at hsome
    obtain ⟨c, hc⟩ := Option.isSome_iff_exists.mp hsome
    have hf := consume_faithful es hc
    have hids : c.DiffIdSet = ∅ := by
      rw [Finset.eq_empty_iff_forall_notMem]
      intro id hid
      obtain ⟨fn, b, hlog, -⟩ := (hf.ids id).mp hid
      exact silent_not_logged hs _ hlog
    refine ⟨es, c, hrun, hs, hc, ?_, hids, fun cmpMap => ?_⟩
    · by_contra hne
      obtain ⟨p, hp⟩ := hf.flag.mp (Or.inl (by simpa [hadDifferences] using hne))
      exact silent_not_logged hs p hp
    · rw [hids]
      simp [IdAssigner.targets]

end Modules

/-! ### Two functions that differ in the order of their blocks -/

def compareInst : Instruction := ⟨0, true, .cmp false 32 [.loc (.arg 0), .const (.plain 5 13)]⟩
def branchInst (yes no : ℕ) : Instruction := ⟨1, false, .br (some (.loc (.inst .icmp 0), no)) yes⟩
def useInst : Instruction := ⟨2, false, .other 33 [.loc (.inst .icmp 0)]⟩
def jumpInst (dest : ℕ) : Instruction := ⟨3, false, .br none dest⟩
def retInst : Instruction := ⟨4, false, .other 1 []⟩

def leftOrder : Fn :=
  ⟨"f", 1, [[compareInst, branchInst 1 2], [useInst, jumpInst 2], [retInst]]⟩
def rightOrder : Fn :=
  ⟨"f", 1, [[compareInst, branchInst 2 1], [retInst], [useInst, jumpInst 1]]⟩

def blockOrder (b : ℕ) : Option ℕ := [0, 2, 1][b]?

theorem left_order_mem {b : ℕ} {i : Instruction} (hi : i ∈ leftOrder.block b) :
    (b = 0 ∧ (i = compareInst ∨ i = branchInst 1 2)) ∨ (b = 1 ∧ (i = useInst ∨ i = jumpInst 2)) ∨
      (b = 2 ∧ i = retInst) := by
  obtain hb | hb := block_cases leftOrder b
  · have hb3 : b < 3 := hb
    obtain rfl | rfl | rfl : b = 0 ∨ b = 1 ∨ b = 2 := by omega
    · exact Or.inl ⟨rfl, by simpa [leftOrder, Fn.block] using hi⟩
    · exact Or.inr (Or.inl ⟨rfl, by simpa [leftOrder, Fn.block] using hi⟩)
    · exact Or.inr (Or.inr ⟨rfl, by simpa [leftOrder, Fn.block] using hi⟩)
  · rw [hb] at hi
    cases hi

theorem left_order_dominated (ps : List ℕ) (h : Path leftOrder ps 1) :
    ∃ d ∈ ps, Defines leftOrder d (.inst .icmp 0) := by
  cases h with
  | @step ps p _ i _ hi hb =>
    refine ⟨p, List.mem_cons_self, compareInst, ?_, rfl, rfl⟩
    obtain ⟨rfl, -⟩ | ⟨-, rfl | rfl⟩ | ⟨-, rfl⟩ := left_order_mem hi
    · exact List.mem_cons_self
    · simp [useInst, Body.successors] at hb
    · simp [jumpInst, Body.successors] at hb
    · simp [retInst, Body.successors] at hb

theorem left_order_available (b k : ℕ) (i : Instruction) (hi : (leftOrder.block b)[k]? = some i)
    (v : Local) (hv : .loc v ∈ Body.operands i.body) : Available leftOrder b k v := by
  obtain ⟨rfl, rfl | rfl⟩ | ⟨rfl, rfl | rfl⟩ | ⟨rfl, rfl⟩ :=
    left_order_mem (List.mem_of_getElem? hi)
  · obtain rfl : v = .arg 0 := by simpa [compareInst, Body.operands] using hv
    exact Nat.zero_lt_one
  · obtain rfl : v = .inst .icmp 0 := by simpa [branchInst, Body.operands] using hv
    have hk : k ≠ 0 := by
      rintro rfl
      cases hi
    obtain ⟨k, rfl⟩ := Nat.exists_eq_succ_of_ne_zero hk
    exact Or.inl ⟨compareInst, List.mem_cons_self, rfl, rfl⟩
  · obtain rfl : v = .inst .icmp 0 := by simpa [useInst, Body.operands] using hv
    exact Or.inr left_order_dominated
  · simp [jumpInst, Body.operands] at hv
  · simp [retInst, Body.operands] at hv

theorem terminated_two {i j : Instruction} (hi : isTerminator i.body.opcode = false)
    (hj : isTerminator j.body.opcode = true) : Terminated [i, j] :=
  ⟨[i], j, rfl, hj, by simpa using hi⟩

theorem terminated_ret : Terminated [retInst] := ⟨[], retInst, rfl, rfl, by simp⟩

theorem left_order_well_formed : WellFormed leftOrder where
  entry := by decide
  terminated := by
    intro b hb
    have hb3 : b < 3 := hb
    obtain rfl | rfl | rfl : b = 0 ∨ b = 1 ∨ b = 2 := by omega
    · exact terminated_two rfl rfl
    · exact terminated_two rfl rfl
    · exact terminated_ret
  targets := by
    intro b i hi x hx
    obtain ⟨-, rfl | rfl⟩ | ⟨-, rfl | rfl⟩ | ⟨-, rfl⟩ := left_order_mem hi
    · simp [compareInst, Body.successors] at hx
    · obtain rfl | rfl : x = 2 ∨ x = 1 := by simpa [branchInst, Body.successors] using hx
      · decide
      · decide
    · simp [useInst, Body.successors] at hx
    · obtain rfl : x = 2 := by simpa [jumpInst, Body.successors] using hx
      decide
    · simp [retInst, Body.successors] at hx
  distinct := by decide
  closed := by
    intro b i hi v hv
    obtain ⟨-, rfl | rfl⟩ | ⟨-, rfl | rfl⟩ | ⟨-, rfl⟩ := left_order_mem hi
    · obtain rfl | rfl : v = .loc (.arg 0) ∨ v = .const (.plain 5 13) := by
        simpa [compareInst, Body.operands] using hv
      · trivial
      · rfl
    · obtain rfl : v = .loc (.inst .icmp 0) := by simpa [branchInst, Body.operands] using hv
      trivial
    · obtain rfl : v = .loc (.inst .icmp 0) := by simpa [useInst, Body.operands] using hv
      trivial
    · simp [jumpInst, Body.operands] at hv
    · simp [retInst, Body.operands] at hv
  cases := by
    intro b i hi
    obtain ⟨-, rfl | rfl⟩ | ⟨-, rfl | rfl⟩ | ⟨-, rfl⟩ := left_order_mem hi <;> trivial
  available := left_order_available

theorem orders_simulate : Simulates leftOrder rightOrder blockOrder some where
  args := rfl
  entry := rfl
  arguments := fun _ _ => rfl
  blocks := by
    intro b c hbc
    have hb : b < 3 := (List.getElem?_eq_some_iff.mp hbc).1
    have hcompare : SameOperand (fun v w => some v = some w) (.loc (.inst .icmp 0))
        (.loc (.inst .icmp 0)) := ⟨rfl, rfl⟩
    obtain rfl | rfl | rfl : b = 0 ∨ b = 1 ∨ b = 2 := by omega
    · cases hbc
      refine List.Forall₂.cons ⟨SameBody.cmp ?_, fun _ => rfl⟩
        (List.Forall₂.cons ⟨SameBody.branch hcompare rfl rfl, fun _ => rfl⟩ List.Forall₂.nil)
      exact List.Forall₂.cons rfl (List.Forall₂.cons rfl List.Forall₂.nil)
    · cases hbc
      exact List.Forall₂.cons
        ⟨SameBody.other (List.Forall₂.cons hcompare List.Forall₂.nil), fun _ => rfl⟩
        (List.Forall₂.cons ⟨SameBody.jump rfl, fun _ => rfl⟩ List.Forall₂.nil)
    · cases hbc
      exact List.Forall₂.cons ⟨SameBody.other List.Forall₂.nil, fun _ => rfl⟩ List.Forall₂.nil

theorem orders_verified : Verified [leftOrder] [rightOrder] where
  left := by
    intro f hf _
    rw [List.mem_singleton.mp hf]
    exact left_order_well_formed
  right := by
    intro g hg c hc
    obtain rfl := List.mem_singleton.mp hg
    have hc3 : c < 3 := hc
    obtain rfl | rfl | rfl : c = 0 ∨ c = 1 ∨ c = 2 := by omega
    · exact terminated_two rfl rfl
    · exact terminated_ret
    · exact terminated_two rfl rfl

theorem modules_silent_iff_orders : Verified [leftOrder] [rightOrder] ∧
    ∃ es c, diffModules queueSorter [leftOrder] [rightOrder] = .ok es ∧ Silent es ∧
      consume (fun b => b.2+7) es = some c ∧ hadDifferences c = false ∧ c.DiffIdSet = ∅ ∧
      ∀ cmpMap, IdAssigner.targets cmpMap c.DiffIdSet = ∅ := by
  refine ⟨orders_verified, (modules_silent_iff queueSorter _ _ orders_verified _).mpr ⟨?_, ?_⟩⟩
  · intro f hf
    obtain rfl := List.mem_singleton.mp hf
    exact ⟨rightOrder, rfl, Or.inr ⟨by simp [leftOrder], by simp [rightOrder], _, _,
      orders_simulate⟩⟩
  · intro g hg
    obtain rfl := List.mem_singleton.mp hg
    exact List.mem_singleton.mpr rfl

end Parmesan.DiffSilent
