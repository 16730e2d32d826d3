import Parmesan.DiffModel
import Parmesan.Outcome

/-!
# The edit script of two blocks

`runBlockDiff` fills a table column by column while the pairs it accepted so far make
later pairs acceptable. With the decisions of the run fixed, the path it ends with is a
script over both blocks, and none is cheaper. The loops that replay the path never
leave a block.
-/

set_option autoImplicit false

namespace Parmesan.DiffScript
open Parmesan.DiffModel
open Parmesan.EditScript
open Parmesan.Outcome

section Table
variable {ι : Type} (accepts : List (ι × ι) → ι → ι → Bool) (ls rs : List ι)

def meet (r : ι) (tentative : List (ι × ι)) (l : ι) : List (ι × ι) :=
  if accepts tentative l r then (l, r) :: tentative else tentative

def columnsBefore (j : ℕ) : List (ι × ι) :=
  (rs.take j).foldl (fun tentative r => ls.foldl (meet accepts r) tentative) []

/-- What the run decides at the cell of the left instruction `i` and the right one `j`. -/
def decided (i j : ℕ) : Bool :=
  match ls[i]?, rs[j]? with
  | some l, some r =>
    accepts ((ls.take i).foldl (meet accepts r) (columnsBefore accepts ls rs j)) l r
  | _, _ => false

structure Fits (i j : ℕ) (e : DiffEntry) : Prop where
  cost : e.Cost = cheapest (decided accepts ls rs) 2 i j
  script : Script (decided accepts ls rs) i j e.Path
  paid : e.Cost = 2*unpaired e.Path

end Table

section Fill
variable {ι : Type} {accepts : List (ι × ι) → ι → ι → Bool} {ls rs : List ι}

theorem fits_first (i : ℕ) : Fits accepts ls rs i 0 ⟨i*LeftCost, List.replicate i .left⟩ where
  cost := by rw [cheapest_zero_right]; exact Nat.mul_comm _ _
  script := script_left _ i
  paid := by
    simp [unpaired, LeftCost, List.count_replicate]
    omega

theorem fits_top {j : ℕ} {e : DiffEntry} (h : Fits accepts ls rs 0 j e) :
    Fits accepts ls rs 0 (j+1) (e.add RightCost .right) where
  cost := by
    rw [cheapest_zero_left, DiffEntry.add, h.cost, cheapest_zero_left]
    rfl
  script := h.script.right
  paid := by
    simp only [DiffEntry.add, h.paid, unpaired_append, RightCost]
    rfl

theorem fits_match {i j : ℕ} {e : DiffEntry} (h : Fits accepts ls rs i j e)
    (hd : decided accepts ls rs i j = true) :
    Fits accepts ls rs (i+1) (j+1) (e.add MatchCost .both) where
  cost := by
    rw [cheapest, if_pos hd, ← h.cost]
    rfl
  script := h.script.both hd
  paid := by
    simp only [DiffEntry.add, h.paid, unpaired_append, MatchCost]
    rfl

theorem fits_change {i j : ℕ} {prev d : DiffEntry} (hp : Fits accepts ls rs i (j+1) prev)
    (hd : Fits accepts ls rs (i+1) j d) (hn : decided accepts ls rs i j = false) :
    Fits accepts ls rs (i+1) (j+1)
      (if prev.Cost ≤ d.Cost then prev.add LeftCost .left else d.add RightCost .right) := by
  have hcheapest : cheapest (decided accepts ls rs) 2 (i+1) (j+1) = min prev.Cost d.Cost+2 := by
    rw [cheapest, if_neg (by simp [hn]), ← hp.cost, ← hd.cost]
  split_ifs with hle
  · refine ⟨?_, hp.script.left, ?_⟩
    · rw [hcheapest, min_eq_left hle]
      rfl
    · simp only [DiffEntry.add, hp.paid, unpaired_append, LeftCost]
      rfl
  · refine ⟨?_, hd.script.right, ?_⟩
    · rw [hcheapest, min_eq_right (by omega)]
      rfl
    · simp only [DiffEntry.add, hd.paid, unpaired_append, RightCost]
      rfl

structure Column (accepts : List (ι × ι) → ι → ι → Bool) (ls rs : List ι) (j : ℕ)
    (entries : List DiffEntry) : Prop where
  size : entries.length = ls.length+1
  fits : ∀ i e, entries[i]? = some e → Fits accepts ls rs i j e

theorem first_column : Column accepts ls rs 0 (firstColumn ls.length) where
  size := by simp [firstColumn]
  fits := by
    intro i e he
    obtain ⟨hlt, rfl⟩ : i < ls.length+1 ∧ _ = e := by
      simpa [firstColumn, List.getElem?_eq_some_iff] using he
    exact fits_first i

theorem decided_cell {i j : ℕ} {l r : ι} (hl : ls[i]? = some l) (hr : rs[j]? = some r) :
    decided accepts ls rs i j =
      accepts ((ls.take i).foldl (meet accepts r) (columnsBefore accepts ls rs j)) l r := by
  unfold decided
  rw [hl, hr]

theorem next_entries_fit {j : ℕ} {r : ι} (hr : rs[j]? = some r) (rest : List ι) (i : ℕ)
    (prev : DiffEntry) (cur : List DiffEntry) (hrest : ls.drop i = rest)
    (hprev : Fits accepts ls rs i (j+1) prev) (hsize : cur.length = rest.length+1)
    (hcur : ∀ k e, cur[k]? = some e → Fits accepts ls rs (i+k) j e) :
    let T := (ls.take i).foldl (meet accepts r) (columnsBefore accepts ls rs j)
    let out := nextEntries accepts r prev rest cur T
    out.1.length = rest.length ∧
      (∀ k e, out.1[k]? = some e → Fits accepts ls rs (i+1+k) (j+1) e) ∧
      out.2 = rest.foldl (meet accepts r) T := by
  induction rest generalizing i prev cur with
  | nil => simp [nextEntries]
  | cons l rest ih =>
    intro T out
    obtain ⟨c, cur, rfl⟩ := List.exists_cons_of_length_eq_add_one hsize
    obtain ⟨d, cur, rfl⟩ := List.exists_cons_of_length_eq_add_one (Nat.succ_inj.mp hsize)
    have hl : ls[i]? = some l := by
      have hget := congrArg (fun xs => xs[0]?) hrest
      simpa using hget
    have htake : ls.take (i+1) = ls.take i ++ [l] := by
      rw [List.take_add_one, hl]
      rfl
    have hdrop : ls.drop (i+1) = rest := by
      rw [← List.drop_drop, hrest]
      rfl
    have htail : ∀ k e, (d::cur)[k]? = some e → Fits accepts ls rs (i+1+k) j e := by
      intro k e he
      have hk := hcur (k+1) e (by simpa using he)
      rwa [show i+1+k = i+(k+1) by omega]
    have hcell : decided accepts ls rs i j = _ := decided_cell hl hr
    have hc := hcur 0 c rfl
    have hd := hcur 1 d rfl
    -- the entry of this cell fits, and the rest of the column starts behind it
    have next : ∀ entry, Fits accepts ls rs (i+1) (j+1) entry →
        out = (entry :: (nextEntries accepts r entry rest (d::cur) (meet accepts r T l)).1,
          (nextEntries accepts r entry rest (d::cur) (meet accepts r T l)).2) →
        out.1.length = (l::rest).length ∧
          (∀ k e, out.1[k]? = some e → Fits accepts ls rs (i+1+k) (j+1) e) ∧
          out.2 = (l::rest).foldl (meet accepts r) T := by
      intro entry hentry hout
      have hT : (ls.take (i+1)).foldl (meet accepts r) (columnsBefore accepts ls rs j) =
          meet accepts r T l := by
        rw [htake, List.foldl_append]
        rfl
      have hrec := ih (i+1) entry (d::cur) hdrop hentry (by simpa using hsize) htail
      rw [hT] at hrec
      obtain ⟨hlen, hfit, hset⟩ := hrec
      rw [hout]
      refine ⟨by simp [hlen], fun k e he => ?_, hset⟩
      cases k with
      | zero =>
        obtain rfl : entry = e := by simpa using he
        exact hentry
      | succ k =>
        rw [show i+1+(k+1) = i+1+1+k by omega]
        exact hfit k e (by simpa using he)
    cases ha : accepts T l r with
    | true =>
      refine next (c.add MatchCost .both) (fits_match hc (hcell.trans ha)) ?_
      simp [out, nextEntries, meet, ha]
    | false =>
      refine next _ (fits_change hprev hd (hcell.trans ha)) ?_
      simp [out, nextEntries, meet, ha]

theorem columns_before_succ {j : ℕ} {r : ι} (hr : rs[j]? = some r) :
    columnsBefore accepts ls rs (j+1) =
      ls.foldl (meet accepts r) (columnsBefore accepts ls rs j) := by
  unfold columnsBefore
  rw [List.take_add_one, hr, List.foldl_append]
  rfl

theorem next_column_fit {j : ℕ} {r : ι} (hr : rs[j]? = some r) {entries : List DiffEntry}
    (h : Column accepts ls rs j entries) :
    Column accepts ls rs (j+1)
        (nextColumn accepts ls (entries, columnsBefore accepts ls rs j) r).1 ∧
      (nextColumn accepts ls (entries, columnsBefore accepts ls rs j) r).2 =
        columnsBefore accepts ls rs (j+1) := by
  cases entries with
  | nil => exact absurd h.size (by simp)
  | cons first cur =>
    have htop := fits_top (h.fits 0 first rfl)
    obtain ⟨hlen, hfit, hset⟩ := next_entries_fit hr ls 0 _ (first::cur) rfl htop h.size
      (fun k e he => by simpa using h.fits k e he)
    rw [columns_before_succ hr]
    refine ⟨⟨by simpa [nextColumn] using hlen, fun i e he => ?_⟩, hset⟩
    cases i with
    | zero =>
      obtain rfl : first.add RightCost .right = e := by simpa [nextColumn] using he
      exact htop
    | succ i =>
      have hi := hfit i e (by simpa [nextColumn] using he)
      rwa [show 0+1+i = i+1 by omega] at hi

theorem columns_fit (j : ℕ) (hj : j ≤ rs.length) :
    Column accepts ls rs j
        ((rs.take j).foldl (nextColumn accepts ls) (firstColumn ls.length, [])).1 ∧
      ((rs.take j).foldl (nextColumn accepts ls) (firstColumn ls.length, [])).2 =
        columnsBefore accepts ls rs j := by
  induction j with
  | zero => exact ⟨first_column, rfl⟩
  | succ j ih =>
    obtain ⟨hcol, hset⟩ := ih (by omega)
    have hr : rs[j]? = some rs[j] := List.getElem?_eq_getElem (by omega)
    have hnext := next_column_fit hr hcol
    rw [← hset] at hnext
    rw [List.take_add_one, hr, List.foldl_append]
    exact hnext

theorem last_entry_fits : Fits accepts ls rs ls.length rs.length (lastEntry accepts ls rs) := by
  have hcol : Column accepts ls rs rs.length _ := (columns_fit rs.length le_rfl).1
  rw [List.take_length] at hcol
  have hlt : ls.length <
      (rs.foldl (nextColumn accepts ls) (firstColumn ls.length, [])).1.length := by
    rw [hcol.size]
    omega
  refine hcol.fits ls.length _ ?_
  rw [lastEntry, List.getD_eq_getElem?_getD, List.getElem?_eq_getElem hlt]
  rfl

end Fill

/-! ## Replaying the path -/

def leftLines (lines : List Line) : List Local :=
  lines.filterMap fun
    | .both l _ => some l
    | .left l => some l
    | .right _ => none

def rightLines (lines : List Line) : List Local :=
  lines.filterMap fun
    | .both _ r => some r
    | .left _ => none
    | .right r => some r

def lineKind : Line → DiffChange
  | .both _ _ => .both
  | .left _ => .left
  | .right _ => .right

section Replay
variable (sorter : Sorter) (L R : Fn)

theorem unify_faults (s : Fde) (l r : Instruction) :
    Ensures (· = .structural) (unify sorter L R s l r) fun _ => True := by
  unfold unify
  simp only
  split_ifs
  · rfl
  · trivial

theorem unify_all_faults (s : Fde) (ls rs : Block) (h : ls.length ≤ rs.length) :
    Ensures (· = .structural) (unifyAll sorter L R s ls rs) fun _ => True := by
  induction ls generalizing s rs with
  | nil =>
    rw [unifyAll]
    trivial
  | cons l ls ih =>
    cases rs with
    | nil => simp at h
    | cons r rs =>
      rw [unifyAll]
      exact ensures_bind (unify_faults sorter L R s l r) fun t _ => ih t rs (by simpa using h)

theorem skip_leading_replays (s : Fde) (Path : List DiffChange) (ls rs : Block)
    (hl : leftCount Path ≤ ls.length) (hr : rightCount Path ≤ rs.length) :
    Ensures (· = .structural) (skipLeadingMatches sorter L R s Path ls rs) fun d =>
      d.2.1.head? ≠ some .both ∧
      ∃ m, Path = List.replicate m .both ++ d.2.1 ∧ d.2.2.1 = ls.drop m ∧ d.2.2.2 = rs.drop m := by
  induction s, Path, ls, rs using skipLeadingMatches.induct with
  | case1 s Path l ls r rs ih =>
    rw [skipLeadingMatches]
    refine ensures_bind (unify_faults sorter L R s l r) fun t _ => ?_
    refine ensures_mono (ih t (by simpa using hl) (by simpa using hr)) ?_
    rintro d ⟨hfirst, m, hpath, hls, hrs⟩
    exact ⟨hfirst, m+1, by rw [hpath, List.replicate_succ]; rfl, by simpa using hls,
      by simpa using hrs⟩
  | case2 s Path ls rs hne =>
    exfalso
    cases ls with
    | nil => simp at hl
    | cons l ls =>
      cases rs with
      | nil => simp at hr
      | cons r rs => exact hne l ls r rs rfl rfl
  | case3 s Path ls rs hne hne' =>
    rw [skipLeadingMatches]
    · refine ⟨fun hfirst => ?_, 0, rfl, rfl, rfl⟩
      obtain ⟨Path', rfl⟩ := List.head?_eq_some_iff.mp hfirst
      exact hne' Path' rfl
    · exact hne'
    · exact hne

/-- What the loop over a path leaves: one line for every change, which name the
instructions it walked over. -/
structure Followed (Path : List DiffChange) (ls rs : Block) (d : Fde × List Line × Block × Block) :
    Prop where
  kinds : d.2.1.map lineKind = Path
  lefts : leftLines d.2.1 = (ls.take (leftCount Path)).map Instruction.value
  rights : rightLines d.2.1 = (rs.take (rightCount Path)).map Instruction.value
  left_rest : d.2.2.1 = ls.drop (leftCount Path)
  right_rest : d.2.2.2 = rs.drop (rightCount Path)

theorem follow_path_replays (s : Fde) (Path : List DiffChange) (ls rs : Block)
    (hl : leftCount Path ≤ ls.length) (hr : rightCount Path ≤ rs.length) :
    Ensures (· = .structural) (followPath sorter L R s Path ls rs) (Followed Path ls rs) := by
  induction s, Path, ls, rs using followPath.induct with
  | case1 s ls rs =>
    rw [followPath]
    exact ⟨rfl, rfl, rfl, rfl, rfl⟩
  | case2 s Path l ls r rs ih =>
    rw [followPath]
    refine ensures_bind (unify_faults sorter L R s l r) fun t _ => ?_
    refine ensures_map (ih t (by simpa using hl) (by simpa using hr)) fun d hd => ?_
    refine ⟨by simp [lineKind, hd.kinds], ?_, ?_, ?_, ?_⟩
    · simpa [leftLines] using hd.lefts
    · simpa [rightLines] using hd.rights
    · simpa using hd.left_rest
    · simpa using hd.right_rest
  | case3 s Path l ls rs ih =>
    rw [followPath]
    refine ensures_map (ih (by simpa using hl) (by simpa using hr)) fun d hd => ?_
    refine ⟨by simp [lineKind, hd.kinds], ?_, ?_, ?_, ?_⟩
    · simpa [leftLines] using hd.lefts
    · simpa [rightLines] using hd.rights
    · simpa using hd.left_rest
    · simpa using hd.right_rest
  | case4 s Path ls r rs ih =>
    rw [followPath]
    refine ensures_map (ih (by simpa using hl) (by simpa using hr)) fun d hd => ?_
    refine ⟨by simp [lineKind, hd.kinds], ?_, ?_, ?_, ?_⟩
    · simpa [leftLines] using hd.lefts
    · simpa [rightLines] using hd.rights
    · simpa using hd.left_rest
    · simpa using hd.right_rest
  | case5 Path s ls rs h1 h2 h3 h4 =>
    exfalso
    cases Path with
    | nil => exact h1 rfl
    | cons c Path =>
      cases c with
      | both =>
        cases ls with
        | nil => simp at hl
        | cons l ls =>
          cases rs with
          | nil => simp at hr
          | cons r rs => exact h2 Path l ls r rs rfl rfl rfl
      | left =>
        cases ls with
        | nil => simp at hl
        | cons l ls => exact h3 Path l ls rfl rfl
      | right =>
        cases rs with
        | nil => simp at hr
        | cons r rs => exact h4 Path r rs rfl rfl

theorem drop_trailing_cases (Path : List DiffChange) :
    (dropTrailingMatches Path = .error .emptyPath ∧ unpaired Path = 0) ∨
    ∃ kept k, dropTrailingMatches Path = .ok kept ∧ Path = kept ++ List.replicate k .both ∧
      (∃ c, kept.getLast? = some c ∧ c ≠ .both) ∧ unpaired Path ≠ 0 := by
  unfold dropTrailingMatches
  have hsplit := List.takeWhile_append_dropWhile (p := (· = Change.both)) (l := Path.reverse)
  have htake : Path.reverse.takeWhile (· = Change.both) =
      List.replicate (Path.reverse.takeWhile (· = Change.both)).length .both := by
    rw [List.eq_replicate_iff]
    exact ⟨rfl, fun c hc => by simpa using List.all_eq_true.mp List.all_takeWhile c hc⟩
  cases hrest : Path.reverse.dropWhile (· = Change.both) with
  | nil =>
    left
    refine ⟨rfl, ?_⟩
    rw [hrest, List.append_nil, htake] at hsplit
    have hpath : Path = List.replicate Path.length .both := by
      rw [List.eq_replicate_iff]
      refine ⟨rfl, fun c hc => ?_⟩
      have hin : c ∈ Path.reverse := List.mem_reverse.mpr hc
      rw [← hsplit] at hin
      exact List.eq_of_mem_replicate hin
    rw [hpath]
    simp [unpaired, List.count_replicate]
  | cons c rest =>
    right
    have hne : c ≠ .both := by
      have hhead := List.head_dropWhile_not (p := (· = Change.both)) (l := Path.reverse)
        (by rw [hrest]; simp)
      simpa [hrest] using hhead
    refine ⟨(c::rest).reverse, (Path.reverse.takeWhile (· = Change.both)).length, rfl, ?_,
      ⟨c, by rw [List.getLast?_reverse, List.head?_cons], hne⟩, ?_⟩
    · rw [hrest, htake] at hsplit
      have hrev := congrArg List.reverse hsplit
      rw [List.reverse_reverse, List.reverse_append, List.reverse_replicate] at hrev
      exact hrev.symm
    · have hmem : c ∈ Path := by
        rw [← List.mem_reverse, ← hsplit, hrest]
        simp
      intro hzero
      rw [unpaired_eq_zero hzero] at hmem
      exact hne (List.eq_of_mem_replicate hmem)

/-- How the lines of a block diff come from its script: the pairs kept at both ends are
left out, as far as they go, and every change between them is one line. -/
structure Reported (Lb Rb : Block) (Path : List DiffChange) (lines : List Line) : Prop where
  ends : ∃ m k, Path = List.replicate m .both ++ lines.map lineKind ++ List.replicate k .both ∧
    leftLines lines = ((Lb.drop m).take (Lb.length-m-k)).map Instruction.value ∧
    rightLines lines = ((Rb.drop m).take (Rb.length-m-k)).map Instruction.value
  first : ∃ line, lines.head? = some line ∧ lineKind line ≠ .both
  last : ∃ line, lines.getLast? = some line ∧ lineKind line ≠ .both

theorem changes_between {m : ℕ} {Path : List DiffChange} {lines : List Line}
    (hfirst : Path.head? ≠ some .both) (hkinds : lines.map lineKind = Path)
    (hlast : ∃ c, (List.replicate m Change.both ++ Path).getLast? = some c ∧ c ≠ .both) :
    (∃ line, lines.head? = some line ∧ lineKind line ≠ .both) ∧
      ∃ line, lines.getLast? = some line ∧ lineKind line ≠ .both := by
  obtain ⟨c, hc, hne⟩ := hlast
  have hpath : Path ≠ [] := by
    rintro rfl
    rw [List.append_nil] at hc
    exact hne (List.eq_of_mem_replicate (List.mem_of_getLast? hc))
  rw [List.getLast?_append_of_ne_nil _ hpath, ← hkinds, List.getLast?_map] at hc
  obtain ⟨last, hlast, rfl⟩ := Option.map_eq_some_iff.mp hc
  refine ⟨?_, last, hlast, hne⟩
  obtain ⟨first, rest, rfl⟩ := List.exists_cons_of_ne_nil (l := lines) (by
    rintro rfl
    exact hpath hkinds.symm)
  refine ⟨first, rfl, fun hboth => hfirst ?_⟩
  rw [← hkinds, List.map_cons, hboth, List.head?_cons]

theorem run_block_diff_replays (s : Fde) (Lb Rb : Block) :
    let Path := (lastEntry (matchForBlockDiff sorter s) Lb Rb).Path
    (unpaired Path = 0 ∧ runBlockDiff sorter L R s Lb Rb = .error .emptyPath) ∨
    (unpaired Path ≠ 0 ∧ Ensures (· = .structural) (runBlockDiff sorter L R s Lb Rb) fun s' =>
      ∃ lines rest, s'.events = .logd lines :: rest ∧ Reported Lb Rb Path lines) := by
  intro Path
  have hfits : Fits (matchForBlockDiff sorter s) Lb Rb Lb.length Rb.length
      (lastEntry (matchForBlockDiff sorter s) Lb Rb) := last_entry_fits
  have hcounts := hfits.script.counts
  obtain ⟨hdrop, hzero⟩ | ⟨kept, k, hdrop, hpath, hlast, hne⟩ := drop_trailing_cases Path
  · left
    refine ⟨hzero, ?_⟩
    unfold runBlockDiff
    simp only [Path] at hdrop
    simp only [hdrop]
    rfl
  · right
    refine ⟨hne, ?_⟩
    unfold runBlockDiff
    simp only [Path] at hdrop
    simp only [hdrop]
    have hl : leftCount kept+k = Lb.length := by
      rw [← hcounts.1, show (lastEntry (matchForBlockDiff sorter s) Lb Rb).Path = _ from hpath]
      simp
    have hr : rightCount kept+k = Rb.length := by
      rw [← hcounts.2, show (lastEntry (matchForBlockDiff sorter s) Lb Rb).Path = _ from hpath]
      simp
    refine ensures_bind (ensures_ok _ kept (· = kept) rfl) ?_
    intro kept' heq
    subst kept'
    refine ensures_bind (skip_leading_replays sorter L R s kept Lb Rb (by omega) (by omega)) ?_
    rintro d ⟨hfirst, m, hkept, hls, hrs⟩
    have hml : m+leftCount d.2.1 = leftCount kept := by rw [hkept]; simp
    have hmr : m+rightCount d.2.1 = rightCount kept := by rw [hkept]; simp
    refine ensures_bind (follow_path_replays sorter L R d.1 d.2.1 d.2.2.1 d.2.2.2
      (by rw [hls, List.length_drop]; omega) (by rw [hrs, List.length_drop]; omega)) ?_
    intro e he
    have htail : e.2.2.1.length = e.2.2.2.length := by
      rw [he.left_rest, he.right_rest, hls, hrs]
      simp only [List.length_drop]
      omega
    refine ensures_map (unify_all_faults sorter L R e.1 e.2.2.1 e.2.2.2 htail.le) fun t _ => ?_
    rw [hkept] at hlast
    have hchanges := changes_between hfirst he.kinds hlast
    refine ⟨e.2.1, _, rfl, ⟨m, k, ?_, ?_, ?_⟩, hchanges.1, hchanges.2⟩
    · rw [he.kinds, ← hkept]
      exact hpath
    · rw [he.lefts, hls, show leftCount d.2.1 = Lb.length-m-k by omega]
    · rw [he.rights, hrs, show rightCount d.2.1 = Rb.length-m-k by omega]

/-- The path of a block diff is a script over both blocks that leaves as few instructions
unpaired as any script over the pairs the run accepted. It can only be emptied when all
pairs on the diagonal were accepted, which then reads the back of an empty path. In every
other case the loops stay inside both blocks and the report consists of the changes. -/
theorem block_diff_exact (s : Fde) (Lb Rb : Block) :
    let Path := (lastEntry (matchForBlockDiff sorter s) Lb Rb).Path
    let kept := decided (matchForBlockDiff sorter s) Lb Rb
    (Script kept Lb.length Rb.length Path ∧
      ∀ p, Script kept Lb.length Rb.length p → unpaired Path ≤ unpaired p) ∧
    (runBlockDiff sorter L R s Lb Rb = .error .emptyPath ↔
      Lb.length = Rb.length ∧ ∀ i < Lb.length, kept i i = true) ∧
    Ensures (fun f => f = .structural ∨ f = .emptyPath) (runBlockDiff sorter L R s Lb Rb)
      fun s' => ∃ lines rest, s'.events = .logd lines :: rest ∧ Reported Lb Rb Path lines := by
  intro Path kept
  have hfits : Fits (matchForBlockDiff sorter s) Lb Rb Lb.length Rb.length
      (lastEntry (matchForBlockDiff sorter s) Lb Rb) := last_entry_fits
  have hleast : ∀ p, Script kept Lb.length Rb.length p → unpaired Path ≤ unpaired p := by
    intro p hp
    have hle := hp.cheapest_le 2
    have hcost := hfits.cost.symm.trans hfits.paid
    simp only [Path, kept] at hle ⊢
    omega
  have hreplay := run_block_diff_replays sorter L R s Lb Rb
  refine ⟨⟨hfits.script, hleast⟩, ⟨fun hempty => ?_, fun ⟨hlen, hdiag⟩ => ?_⟩, ?_⟩
  · obtain ⟨hzero, _⟩ | ⟨_, hens⟩ := hreplay
    · obtain ⟨hl, hr, hk⟩ := hfits.script.diagonal (unpaired_eq_zero hzero)
      exact ⟨hl.trans hr.symm, fun i hi => hk i (by omega)⟩
    · rw [hempty] at hens
      cases hens
  · have hscript := script_diagonal hdiag
    have hle : unpaired Path ≤ unpaired (List.replicate Lb.length Change.both) := by
      refine hleast _ ?_
      rwa [← hlen]
    obtain ⟨_, hrun⟩ | ⟨hne, _⟩ := hreplay
    · exact hrun
    · exact absurd (by simpa [unpaired, List.count_replicate] using hle) hne
  · obtain ⟨_, hrun⟩ | ⟨_, hens⟩ := hreplay
    · rw [hrun]
      exact Or.inr rfl
    · cases hr : runBlockDiff sorter L R s Lb Rb with
      | ok s' => rwa [hr] at hens
      | error f =>
        rw [hr] at hens
        exact Or.inl hens

-- Two calls of one function match in every combination. When their results are used in the
-- other order on the right, the whole diagonal is accepted although the first loop saw a
-- difference, and the path is emptied.
example : runBlockDiff (queueSorter ⟨"f", 0, []⟩) ⟨"f", 0, []⟩ ⟨"f", 0, []⟩ (newFde [])
    [⟨0, true, .call (.const (.global 1 0 "g")) []⟩, ⟨1, true, .call (.const (.global 1 0 "g")) []⟩,
      ⟨2, false, .other 15 [.loc (.inst .call 0), .loc (.inst .call 1)]⟩, ⟨3, false, .unreachable⟩]
    [⟨0, true, .call (.const (.global 2 0 "g")) []⟩, ⟨1, true, .call (.const (.global 2 0 "g")) []⟩,
      ⟨2, false, .other 15 [.loc (.inst .call 1), .loc (.inst .call 0)]⟩,
      ⟨3, false, .unreachable⟩] = .error .emptyPath := by
  rfl

end Replay

end Parmesan.DiffScript
