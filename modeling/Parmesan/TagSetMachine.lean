import Parmesan.TagSetRun

/-!
# The label set on 32-bit words

The operations of `runtime/src/tag_set.rs` as the release build runs them: sums
and differences of offsets wrap, every access is checked against the node
vector, and a loop stops with `divergence` after `fuel` passes. While no sum
wraps they agree with the operations on plain numbers.
-/

set_option autoImplicit false

namespace Parmesan.TagSetMachine
open Parmesan.TagSetModel Parmesan.TagSetInvariant Parmesan.TagSetInsert Parmesan.TagSetShape
open Parmesan.TagSetCanonical Parmesan.TagSetChain Parmesan.TagSetCombine
open Parmesan.TagSetRun (Op Session opLabels opOffset issued)
open Parmesan.Outcome Parmesan.Execution

def add32 (a b : ℕ) : ℕ := (a+b) % 2^32
def sub32 (a b : ℕ) : ℕ := (a+(2^32-b)) % 2^32

def nodeAt (s : TagSet) (lb : ℕ) : Checked Fault TagNode :=
  if lb < size s then pure (node s lb) else outside

def modifyAt (s : TagSet) (lb : ℕ) (f : TagNode → TagNode) : Checked Fault TagSet :=
  if lb < size s then pure (modifyNode s lb f) else outside

def setLeftAt (s : TagSet) (lb v : ℕ) : Checked Fault TagSet :=
  modifyAt s lb fun n => { n with left := v }
def setRightAt (s : TagSet) (lb v : ℕ) : Checked Fault TagSet :=
  modifyAt s lb fun n => { n with right := v }
def setParentAt (s : TagSet) (lb v : ℕ) : Checked Fault TagSet :=
  modifyAt s lb fun n => { n with parent := v }
def setStartAt (s : TagSet) (lb v : ℕ) : Checked Fault TagSet :=
  modifyAt s lb fun n => { n with seg := { n.seg with start := v } }

section Operations

def insertNZeros : ℕ → TagSet → ℕ → ℕ → ℕ → Checked Fault (TagSet × ℕ)
  | 0, s, cur, n, _ => if n = 0 then pure (s, cur) else checked (.error .divergence)
  | fuel+1, s, cur, n, lastOne =>
    if n = 0 then pure (s, cur) else do
      let c ← nodeAt s cur
      let x ← nodeAt s c.left
      let nextSize := sub32 x.seg.stop x.seg.start
      let off := c.seg.stop
      if c.left = 0 then do
        let (s, lb) ← checked (newNode s lastOne off (add32 off n))
        let s ← setLeftAt s cur lb
        pure (s, lb)
      else if n < nextSize then do
        let (s, lb) ← checked (newNode s lastOne off (add32 off n))
        let s ← setLeftAt s cur lb
        let s ← setLeftAt s lb c.left
        let s ← setStartAt s c.left (add32 off n)
        pure (s, lb)
      else insertNZeros fuel s c.left (n-nextSize) lastOne

def insertNOnes : ℕ → TagSet → ℕ → ℕ → ℕ → Checked Fault (TagSet × ℕ)
  | 0, s, cur, n, _ => if n = 0 then pure (s, cur) else checked (.error .divergence)
  | fuel+1, s, cur, n, lastOne =>
    if n = 0 then pure (s, cur) else do
      let c ← nodeAt s cur
      let off := c.seg.stop
      if c.right = 0 then do
        let (s, lb) ← checked (newNode s lastOne off (add32 off n))
        let s ← setRightAt s cur lb
        pure (s, lb)
      else do
        let x ← nodeAt s c.right
        let nextSize := sub32 x.seg.stop off
        if n < nextSize then do
          let (s, lb) ← checked (newNode s lastOne off (add32 off n))
          let s ← setRightAt s cur lb
          let s ← setRightAt s lb c.right
          let s ← setParentAt s c.right lb
          let s ← setStartAt s c.right (add32 off n)
          pure (s, lb)
        else insertNOnes fuel s c.right (n-nextSize) c.right

def insert (fuel : ℕ) (s : TagSet) (offset : ℕ) : Checked Fault (TagSet × ℕ) := do
  let (s, cur) ← insertNZeros fuel s ROOT offset ROOT
  insertNOnes fuel s cur 1 ROOT

def setSign (s : TagSet) (lb : ℕ) : Checked Fault TagSet :=
  modifyAt s lb fun n => { n with seg := { n.seg with sign := true } }

def combineAnd (s : TagSet) (lb : ℕ) : Checked Fault TagSet :=
  modifyAt s lb fun n => { n with andOp := true }

def splitLoop (depth : ℕ) : ℕ → TagSet → ℕ → ℕ → Checked Fault TagSet
  | 0, s, cur, lb => if cur = lb then pure s else checked (.error .divergence)
  | fuel+1, s, cur, lb =>
    if cur = lb then pure s else do
      let (s, cur) ← insertNOnes depth s cur 1 cur
      splitLoop depth fuel s cur lb

def splitAndOp (fuel : ℕ) (s : TagSet) (lb : ℕ) : Checked Fault (TagSet × ℕ) := do
  let n ← nodeAt s lb
  let seg := n.seg
  if 1 < sub32 seg.stop seg.start ∧ n.parent ≠ ROOT then do
    let p ← nodeAt s n.parent
    if seg.start ≤ p.seg.start then do
      let s ← if p.seg.stop < seg.stop then splitLoop fuel fuel s n.parent lb else pure s
      let s ← setStartAt s lb (sub32 seg.stop 1)
      pure (s, lb)
    else pure (s, lb)
  else pure (s, lb)

def splitMarked (fuel : ℕ) (s : TagSet) (lb : ℕ) : Checked Fault (TagSet × ℕ) := do
  let n ← nodeAt s lb
  if n.andOp then splitAndOp fuel s lb else pure (s, lb)

def inferShape (fuel : ℕ) (s : TagSet) (l1 l2 len : ℕ) : Checked Fault (TagSet × Option ℕ) :=
  if len ≠ 2 ∧ len ≠ 4 ∧ len ≠ 8 then pure (s, none) else do
    let n1 ← nodeAt s l1
    if n1.parent = ROOT then do
      let n2 ← nodeAt s l2
      if n2.parent = ROOT ∧ add32 n1.seg.start len = n2.seg.stop then do
        let (s, cur) ← insertNOnes fuel s l1 (len-1) l1
        let n1 ← nodeAt s l1
        let s ← setStartAt s cur n1.seg.start
        pure (s, some cur)
      else pure (s, none)
    else pure (s, none)

def inferIf (fuel : ℕ) (infer : Bool) (s : TagSet) (l1 l2 len : ℕ) :
    Checked Fault (TagSet × Option ℕ) :=
  if infer then inferShape fuel s l1 l2 len else pure (s, none)

def climb (s : TagSet) : ℕ → ℕ → Checked Fault (Option ℕ)
  | 0, cur => pure (some cur)
  | k+1, cur => do
    let n ← nodeAt s cur
    if n.parent = ROOT then pure none else climb s k n.parent

def inferShape2 (s : TagSet) (lb len : ℕ) : Checked Fault TagSet :=
  if lb = ROOT then pure s else do
    let n ← nodeAt s lb
    if add32 n.seg.start 1 < n.seg.stop then pure s else do
      match ← climb s ((len+(2^64-1)) % 2^64) lb with
      | none => pure s
      | some cur => do
        let c ← nodeAt s cur
        if c.parent = ROOT ∧ add32 c.seg.start (len % 2^32) = n.seg.stop
        then setStartAt s lb c.seg.start else pure s

def combineWalk : ℕ → TagSet → ℕ → ℕ → List ℕ → ℕ → Checked Fault (ℕ × ℕ × List ℕ)
  | 0, _, l1, l2, st, _ =>
    if l1 = 0 ∨ l1 = l2 then pure (l1, l2, st) else checked (.error .divergence)
  | fuel+1, s, l1, l2, st, lastBegin =>
    if l1 = 0 ∨ l1 = l2 then pure (l1, l2, st) else do
      let n1 ← nodeAt s l1
      let n2 ← nodeAt s l2
      let b1 := n1.seg.start
      let b2 := n2.seg.start
      if b1 < b2 then
        if b2 < lastBegin then combineWalk fuel s l1 n2.parent (l2::st) b2
        else combineWalk fuel s l1 n2.parent st lastBegin
      else
        if b1 < lastBegin then combineWalk fuel s n1.parent l2 (l1::st) b1
        else combineWalk fuel s n1.parent l2 st lastBegin

def combineStep (fuel : ℕ) (s : TagSet) (cur next : ℕ) : Checked Fault (TagSet × ℕ) := do
  let c ← nodeAt s cur
  let x ← nodeAt s next
  if x.seg.start ≤ c.seg.stop then
    if c.seg.stop < x.seg.stop then insertNOnes fuel s cur (sub32 x.seg.stop c.seg.stop) cur
    else pure (s, cur)
  else do
    let (s, gap) ← insertNZeros fuel s cur (sub32 x.seg.start c.seg.stop) cur
    insertNOnes fuel s gap (sub32 x.seg.stop x.seg.start) cur

def combinePop (fuel : ℕ) : TagSet → ℕ → List ℕ → Checked Fault (TagSet × ℕ)
  | s, cur, [] => pure (s, cur)
  | s, cur, next::st => do
    let x ← nodeAt s next
    let (s, cur) ← combineStep fuel s cur next
    let s ← if x.seg.sign then setSign s cur else pure s
    combinePop fuel s cur st

def combine (fuel : ℕ) (s : TagSet) (l1 l2 : ℕ) : Checked Fault (TagSet × ℕ) :=
  if l1 = 0 then pure (s, l2)
  else if l2 = 0 ∨ l1 = l2 then pure (s, l1)
  else do
    let (l1, l2, st) ← combineWalk fuel s (min l1 l2) (max l1 l2) [] MAX_LB
    combinePop fuel s (if 0 < l1 then l1 else l2) st

def combineRest (fuel : ℕ) : TagSet → ℕ → List ℕ → Checked Fault (TagSet × ℕ)
  | s, cur, [] => pure (s, cur)
  | s, cur, next::rest => do
    let (s, cur) ← combine fuel s cur next
    combineRest fuel s cur rest

def combineN (fuel : ℕ) (s : TagSet) (lbs : List ℕ) (infer : Bool) : Checked Fault (TagSet × ℕ) :=
  match lbs.dropWhile (· = ROOT) with
  | [] => pure (s, ROOT)
  | [cur] => pure (s, cur)
  | cur::next::rest => do
    let (s, shape) ← inferIf fuel infer s cur (lbs.getLastD ROOT) lbs.length
    match shape with
    | some lb => pure (s, lb)
    | none => combineRest fuel s cur (next::rest)

def findLoop (depth : ℕ) : ℕ → TagSet → ℕ → List TagSeg → ℕ →
    Checked Fault (TagSet × List TagSeg)
  | 0, s, lb, tags, _ => if lb = 0 then pure (s, tags) else checked (.error .divergence)
  | fuel+1, s, lb, tags, lastBegin =>
    if lb = 0 then pure (s, tags) else do
      let (s, lb) ← splitMarked depth s lb
      let n ← nodeAt s lb
      let t := n.seg
      if t.start < lastBegin then findLoop depth fuel s n.parent (t::tags) t.start
      else findLoop depth fuel s n.parent tags lastBegin

def find (fuel : ℕ) (s : TagSet) (lb : ℕ) : Checked Fault (TagSet × List TagSeg) :=
  findLoop fuel fuel s lb [] MAX_LB

def issue (r : Checked Fault (TagSet × ℕ)) : Checked Fault (TagSet × List ℕ) := do
  let (s, lb) ← r
  pure (s, [lb])

def step (fuel : ℕ) (s : TagSet) : Op → Checked Fault (TagSet × List ℕ)
  | .insert offset => issue (insert fuel s offset)
  | .combine l1 l2 => issue (combine fuel s l1 l2)
  | .combineN lbs infer => issue (combineN fuel s lbs infer)
  | .inferShape2 lb len => do
    let s ← inferShape2 s lb len
    pure (s, [])
  | .setSign lb => do
    let s ← setSign s lb
    pure (s, [])
  | .combineAnd lb => do
    let s ← combineAnd s lb
    pure (s, [])
  | .splitAndOp lb => issue (splitAndOp fuel s lb)
  | .find lb => do
    let (s, _) ← find fuel s lb
    pure (s, [])

def call (fuel : ℕ) (σ : Session) (op : Op) : Option Session :=
  match step fuel σ.tags op with
  | some (.ok (s, out)) => some ⟨s, ⟨op, out⟩::σ.calls⟩
  | _ => none

def Valid (σ : Session) (op : Op) : Prop :=
  (∀ l ∈ opLabels op, l ∈ issued σ) ∧ opOffset op < 2^32

instance (σ : Session) (op : Op) : Decidable (Valid σ op) := inferInstanceAs (Decidable (_ ∧ _))

end Operations

section Agreement
variable {top : ℕ} {s : TagSet} {m : Meaning} {enough : Prop}

theorem add32_eq {a b : ℕ} (h : a+b < 2^32) : add32 a b = a+b := Nat.mod_eq_of_lt h

theorem sub32_eq {a b : ℕ} (hab : b ≤ a) (ha : a < 2^32) : sub32 a b = a-b := by
  unfold sub32
  omega

theorem node_at_ok {lb : ℕ} (h : lb < size s) : nodeAt s lb = pure (node s lb) := if_pos h

theorem modify_at_ok {lb : ℕ} (h : lb < size s) (f : TagNode → TagNode) :
    modifyAt s lb f = pure (modifyNode s lb f) := if_pos h

theorem new_node_value {s' : TagSet} {parent start stop lb : ℕ}
    (h : newNode s parent start stop = .ok (s', lb)) : size s' = size s+1 ∧ lb = size s := by
  unfold newNode at h
  split_ifs at h
  obtain ⟨rfl, rfl⟩ := Prod.mk.inj (Except.ok.inj h)
  exact ⟨size_push s _, rfl⟩

theorem linked_agrees {parent start stop cur : ℕ} (hcur : cur < size s)
    (link : ℕ → TagNode → TagNode) :
    Agrees enough .divergence
      (do
        let (s, lb) ← checked (newNode s parent start stop)
        let s ← modifyAt s cur (link lb)
        pure (s, lb))
      (do
        let (s, lb) ← newNode s parent start stop
        .ok (modifyNode s cur (link lb), lb)) := by
  refine agrees_bind (agrees_refl _ _ _) ?_
  rintro ⟨s', lb⟩ hnew
  obtain ⟨hsize, rfl⟩ := new_node_value hnew
  dsimp only
  rw [modify_at_ok (by omega), pure_bind]
  exact agrees_refl _ _ _

theorem zeros_done (s : TagSet) (k cur last : ℕ) :
    insertNZerosLoop k s cur 0 last = .ok (s, cur) := by
  cases k with
  | zero => rfl
  | succ k => rfl

theorem ones_done (s : TagSet) (k cur last : ℕ) :
    insertNOnesLoop k s cur 0 last = .ok (s, cur) := by
  cases k with
  | zero => rfl
  | succ k => rfl

theorem insert_zeros_agrees (h : Inv top s m) (htop : top < 2^32) (fuel : ℕ) :
    ∀ k cur n last, cur < size s → (node s cur).seg.stop+n ≤ top → n ≤ k → (enough → n ≤ fuel) →
      Agrees enough .divergence (insertNZeros fuel s cur n last)
        (insertNZerosLoop k s cur n last) := by
  induction fuel with
  | zero =>
    intro k cur n last hcur hmax hk hfuel
    by_cases hn : n = 0
    · subst hn
      rw [zeros_done]
      exact agrees_refl _ _ _
    · rw [insertNZeros, if_neg hn]
      exact agrees_cut (fun he => hn (Nat.le_zero.mp (hfuel he))) _
  | succ fuel ih =>
    intro k cur n last hcur hmax hk hfuel
    by_cases hn : n = 0
    · subst hn
      rw [zeros_done]
      exact agrees_refl _ _ _
    obtain ⟨k, rfl⟩ := Nat.exists_eq_add_one.mpr (show 0 < k by omega)
    have hleft := left_lt h cur
    rw [insertNZeros, insertNZerosLoop, if_neg hn, if_neg hn, node_at_ok hcur, pure_bind,
      node_at_ok hleft, pure_bind]
    dsimp only
    rw [add32_eq (by omega)]
    by_cases hz : (node s cur).left = 0
    · rw [if_pos hz, if_pos hz]
      exact linked_agrees hcur fun lb c => { c with left := lb }
    rw [if_neg hz, if_neg hz]
    have he := h.zero cur hcur hz
    have hstop := he.stop
    have hlim := h.limit _ he.lt
    rw [sub32_eq (by rw [he.start]; omega) (by omega), he.start]
    by_cases hcut : n < (node s (node s cur).left).seg.stop-(node s cur).seg.stop
    · rw [if_pos hcut, if_pos hcut]
      refine agrees_bind (agrees_refl _ _ _) ?_
      rintro ⟨s', lb⟩ hnew
      obtain ⟨hsize, rfl⟩ := new_node_value hnew
      dsimp only
      rw [setLeftAt, modify_at_ok (by omega), pure_bind,
        setLeftAt, modify_at_ok (by rw [size_modify_node]; omega), pure_bind,
        setStartAt, modify_at_ok (by rw [size_modify_node, size_modify_node]; omega), pure_bind]
      exact agrees_refl _ _ _
    · rw [if_neg hcut, if_neg hcut]
      apply ih
      · exact he.lt
      · omega
      · omega
      · intro henough
        have := hfuel henough
        omega

theorem insert_ones_agrees (h : Inv top s m) (htop : top < 2^32) (fuel : ℕ) :
    ∀ k cur n last, cur < size s → (node s cur).seg.stop+n ≤ top → n ≤ k → (enough → n ≤ fuel) →
      Agrees enough .divergence (insertNOnes fuel s cur n last)
        (insertNOnesLoop k s cur n last) := by
  induction fuel with
  | zero =>
    intro k cur n last hcur hmax hk hfuel
    by_cases hn : n = 0
    · subst hn
      rw [ones_done]
      exact agrees_refl _ _ _
    · rw [insertNOnes, if_neg hn]
      exact agrees_cut (fun he => hn (Nat.le_zero.mp (hfuel he))) _
  | succ fuel ih =>
    intro k cur n last hcur hmax hk hfuel
    by_cases hn : n = 0
    · subst hn
      rw [ones_done]
      exact agrees_refl _ _ _
    obtain ⟨k, rfl⟩ := Nat.exists_eq_add_one.mpr (show 0 < k by omega)
    have hright := right_lt h cur
    rw [insertNOnes, insertNOnesLoop, if_neg hn, if_neg hn, node_at_ok hcur, pure_bind]
    dsimp only
    rw [add32_eq (by omega)]
    by_cases hz : (node s cur).right = 0
    · rw [if_pos hz, if_pos hz]
      exact linked_agrees hcur fun lb c => { c with right := lb }
    rw [if_neg hz, if_neg hz, node_at_ok hright, pure_bind]
    have he := h.one cur hcur hz
    have hstop := he.stop
    have hlim := h.limit _ he.lt
    rw [sub32_eq (by omega) (by omega)]
    by_cases hcut : n < (node s (node s cur).right).seg.stop-(node s cur).seg.stop
    · rw [if_pos hcut, if_pos hcut]
      refine agrees_bind (agrees_refl _ _ _) ?_
      rintro ⟨s', lb⟩ hnew
      obtain ⟨hsize, rfl⟩ := new_node_value hnew
      dsimp only
      rw [setRightAt, modify_at_ok (by omega), pure_bind,
        setRightAt, modify_at_ok (by rw [size_modify_node]; omega), pure_bind,
        setParentAt, modify_at_ok (by rw [size_modify_node, size_modify_node]; omega), pure_bind,
        setStartAt, modify_at_ok (by simp only [size_modify_node]; omega), pure_bind]
      exact agrees_refl _ _ _
    · rw [if_neg hcut, if_neg hcut]
      apply ih
      · exact he.lt
      · omega
      · omega
      · intro henough
        have := hfuel henough
        omega

theorem gap_agrees (h : Inv top s m) (htop : top < 2^32) {fuel cur gap n : ℕ}
    (hcur : IsLabel s m cur) (hmax : (node s cur).seg.stop+gap+n ≤ top)
    (hgap : enough → gap ≤ fuel) (hn : enough → n ≤ fuel) :
    Agrees enough .divergence
      (do
        let (s, z) ← insertNZeros fuel s cur gap cur
        insertNOnes fuel s z n cur)
      (do
        let (s, z) ← TagSetModel.insertNZeros s cur gap cur
        TagSetModel.insertNOnes s z n cur) := by
  have hz := insert_zeros_spec (n := gap) h hcur.1 (by omega)
  rw [label_last_one h hcur] at hz
  refine agrees_ensures
    (insert_zeros_agrees h htop fuel gap cur gap cur hcur.1 (by omega) le_rfl hgap) hz ?_
  rintro ⟨s', z⟩ ⟨m', hins, -⟩
  exact insert_ones_agrees hins.inv htop fuel n z n cur hins.lt (by rw [hins.stop]; exact hmax)
    le_rfl hn

theorem insert_agrees (h : Inv top s m) (htop : top < 2^32) {fuel offset : ℕ} (ho : offset < top)
    (hfuel : enough → offset+1 ≤ fuel) :
    Agrees enough .divergence (insert fuel s offset) (TagSetModel.insert s offset) :=
  gap_agrees h htop ⟨h.size_pos, Or.inl rfl⟩ (by rw [ROOT, h.root_stop]; omega)
    (fun he => by have := hfuel he; omega) fun he => by have := hfuel he; omega

theorem split_loop_done (k : ℕ) (s : TagSet) (lb : ℕ) :
    TagSetModel.splitLoop k s lb lb = .ok s := by
  cases k with
  | zero => rw [TagSetModel.splitLoop, if_pos rfl]
  | succ k => rw [TagSetModel.splitLoop, if_pos rfl]

theorem split_loop_agrees (htop : top < 2^32) {depth : ℕ} (hdepth : enough → 1 ≤ depth)
    (fuel : ℕ) : ∀ (k : ℕ) (s : TagSet) (m : Meaning) (cur lb : ℕ), Inv top s m →
      IsLabel s m cur → cur ≠ 0 → (node s cur).right = lb → lb ≠ 0 →
      (node s lb).seg.stop ≤ (node s cur).seg.stop+k →
      (enough → (node s lb).seg.stop ≤ (node s cur).seg.stop+fuel) →
      Agrees enough .divergence (splitLoop depth fuel s cur lb)
        (TagSetModel.splitLoop k s cur lb) := by
  induction fuel with
  | zero =>
    intro k s m cur lb h hcur hc0 hr hlb hk hfuel
    have he := h.one cur hcur.1 (by omega)
    rw [hr] at he
    have hstop := he.stop
    have hne : cur ≠ lb := by
      rintro rfl
      omega
    rw [splitLoop, if_neg hne]
    apply agrees_cut
    intro henough
    have := hfuel henough
    omega
  | succ fuel ih =>
    intro k s m cur lb h hcur hc0 hr hlb hk hfuel
    have he := h.one cur hcur.1 (by omega)
    rw [hr] at he
    have hstop := he.stop
    have hlim := h.limit lb he.lt
    have hne : cur ≠ lb := by
      rintro rfl
      omega
    obtain ⟨k, rfl⟩ := Nat.exists_eq_add_one.mpr (show 0 < k by omega)
    rw [splitLoop, TagSetModel.splitLoop, if_neg hne, if_neg hne]
    refine agrees_ensures (insert_ones_agrees h htop depth 1 cur 1 cur hcur.1 (by omega) le_rfl
      hdepth) (split_step h hcur hc0 hr hlb) ?_
    rintro ⟨s', r⟩ ⟨m', hinv, hkept, hnext, hlabel, hr0, ⟨hle, heq⟩ | ⟨hlt, hright, -⟩⟩
    · obtain ⟨rfl, rfl⟩ := Prod.mk.inj heq
      dsimp only
      rw [split_loop_done]
      cases fuel with
      | zero => rw [splitLoop, if_pos rfl]; exact agrees_refl _ _ _
      | succ fuel => rw [splitLoop, if_pos rfl]; exact agrees_refl _ _ _
    · apply ih k s' m' r lb hinv hlabel hr0 hright hlb
      · rw [hkept.stop lb he.lt, hnext]
        omega
      · intro henough
        have := hfuel henough
        rw [hkept.stop lb he.lt, hnext]
        omega

theorem split_and_op_agrees (h : Inv top s m) (htop : top < 2^32) {fuel lb : ℕ}
    (hfuel : enough → top ≤ fuel) (hl : IsLabel s m lb) :
    Agrees enough .divergence (splitAndOp fuel s lb) (TagSetModel.splitAndOp s lb) := by
  rw [splitAndOp, node_at_ok hl.1, pure_bind]
  dsimp only [TagSetModel.splitAndOp]
  have hlim := h.limit lb hl.1
  by_cases h0 : lb = 0
  · subst h0
    rw [h.root_start, h.root_stop, if_neg fun hall => absurd hall.1 (by decide),
      if_neg fun hall => absurd hall.1 (by decide)]
    exact agrees_refl _ _ _
  have he := parent_edge h hl h0
  have hstart := he.start
  have hstop := he.stop
  rw [sub32_eq hstart.le (by omega), sub32_eq (by omega) (by omega), node_at_ok he.label.1,
    pure_bind]
  by_cases hwide : 1 < (node s lb).seg.stop-(node s lb).seg.start ∧ (node s lb).parent ≠ ROOT
  · rw [if_pos hwide]
    by_cases hg : (node s lb).seg.start ≤ (node s (node s lb).parent).seg.start
    · have hall := And.intro hwide.1 (And.intro hwide.2 hg)
      rw [if_pos hg, if_pos hall, if_pos hstop, if_pos hstop]
      have hright := grouped_right h hl h0 hwide.2 hg
      have hpath := split_loop_spec ((node s lb).seg.stop-(node s (node s lb).parent).seg.stop) s m
        _ lb h he.label hwide.2 hright h0 (by omega)
      refine agrees_ensures (split_loop_agrees htop (fun henough => ?_) fuel _ s m _ lb h he.label
        hwide.2 hright h0 (by omega) fun henough => ?_) hpath ?_
      · have := hfuel henough
        omega
      · have := hfuel henough
        omega
      rintro s' ⟨m', -, -, -, hlabel, -⟩
      rw [setStartAt, modify_at_ok hlabel.1, pure_bind]
      exact agrees_refl _ _ _
    · rw [if_neg hg, if_neg fun hall => hg hall.2.2]
      exact agrees_refl _ _ _
  · rw [if_neg hwide, if_neg fun hall => hwide ⟨hall.1, hall.2.1⟩]
    exact agrees_refl _ _ _

theorem infer_shape_agrees (h : Inv top s m) (htop : top < 2^32) {fuel l1 l2 len : ℕ}
    (hfuel : enough → 2^32 ≤ fuel) (hl1 : IsLabel s m l1) (h0 : l1 ≠ 0) (hl2 : IsLabel s m l2)
    (hsum : len = 2 ∨ len = 4 ∨ len = 8 → (node s l1).seg.start+len < 2^32) :
    Agrees enough .divergence (inferShape fuel s l1 l2 len)
      (TagSetModel.inferShape s l1 l2 len) := by
  unfold inferShape TagSetModel.inferShape
  by_cases hlen : len ≠ 2 ∧ len ≠ 4 ∧ len ≠ 8
  · rw [if_pos hlen, if_pos hlen]
    exact agrees_refl _ _ _
  rw [if_neg hlen, if_neg hlen, node_at_ok hl1.1, pure_bind, node_at_ok hl2.1, pure_bind,
    add32_eq (hsum (by omega))]
  by_cases hp : (node s l1).parent = ROOT
  swap
  · rw [if_neg hp, if_neg fun hg => hp hg.1]
    exact agrees_refl _ _ _
  rw [if_pos hp]
  by_cases hg : (node s l2).parent = ROOT ∧ (node s l1).seg.start+len = (node s l2).seg.stop
  · rw [if_pos hg, if_pos ⟨hp, hg⟩]
    have hlim := h.limit l2 hl2.1
    have hunit := (root_label_bits h hl1 h0 hp).1
    have hfirst : FirstRun s m l1 (len-1) := by
      intro hz
      exact absurd ((label_last_one h hl1).symm.trans hz) h0
    refine agrees_ensures (insert_ones_agrees h htop fuel (len-1) l1 (len-1) l1 hl1.1 (by omega)
      le_rfl fun henough => ?_) (insert_ones_label h hl1 (by omega) hfirst (by omega)) ?_
    · have := hfuel henough
      omega
    rintro ⟨s', cur⟩ ⟨m', hins, -⟩
    dsimp only
    rw [node_at_ok (lt_of_lt_of_le hl1.1 hins.kept.size), pure_bind, setStartAt,
      modify_at_ok hins.lt, pure_bind]
    exact agrees_refl _ _ _
  · rw [if_neg hg, if_neg fun hall => hg hall.2]
    exact agrees_refl _ _ _

theorem climb_ok (h : Inv top s m) (k : ℕ) : ∀ lb, IsLabel s m lb → lb ≠ 0 →
    climb s k lb = pure (TagSetModel.climb s k lb) := by
  induction k with
  | zero =>
    intro lb hl h0
    rfl
  | succ k ih =>
    intro lb hl h0
    rw [climb, TagSetModel.climb, node_at_ok hl.1, pure_bind]
    by_cases hp : (node s lb).parent = ROOT
    · rw [if_pos hp, if_pos hp]
    · rw [if_neg hp, if_neg hp]
      exact ih _ (parent_edge h hl h0).label hp

theorem infer_shape2_ok (h : Inv top s m) (htop : top < 2^32) {lb : ℕ} (hl : IsLabel s m lb)
    (len : ℕ) : inferShape2 s lb len = pure (TagSetModel.inferShape2 s lb len) := by
  unfold inferShape2 TagSetModel.inferShape2
  by_cases h0 : lb = ROOT
  · rw [if_pos h0, if_pos (Or.inl h0)]
  have hstart := (parent_edge h hl h0).start
  have hlim := h.limit lb hl.1
  rw [if_neg h0, node_at_ok hl.1, pure_bind, add32_eq (by omega)]
  by_cases hwide : (node s lb).seg.start+1 < (node s lb).seg.stop
  · rw [if_pos hwide, if_pos (Or.inr hwide)]
  rw [if_neg hwide, if_neg (not_or.mpr ⟨h0, hwide⟩), climb_ok h _ lb hl h0, pure_bind]
  cases hc : TagSetModel.climb s ((len+(2^64-1)) % 2^64) lb with
  | none => rfl
  | some cur =>
    have hcur := (climb_spec h _ lb cur hl h0 hc).1
    dsimp only
    rw [node_at_ok hcur.1, pure_bind, add32]
    split_ifs
    · exact modify_at_ok hl.1 _
    · rfl

theorem combine_walk_done {s : TagSet} {l1 l2 : ℕ} (h : l1 = 0 ∨ l1 = l2) (k : ℕ) (st : List ℕ)
    (last : ℕ) : TagSetModel.combineWalk k s l1 l2 st last = .ok (l1, l2, st) := by
  cases k with
  | zero => rw [TagSetModel.combineWalk, if_pos h]
  | succ k => rw [TagSetModel.combineWalk, if_pos h]

theorem combine_walk_agrees (h : Inv top s m) (fuel : ℕ) : ∀ k l1 l2 st last, IsLabel s m l1 →
    IsLabel s m l2 → (node s l1).seg.stop+(node s l2).seg.stop ≤ k →
    (enough → (node s l1).seg.stop+(node s l2).seg.stop ≤ fuel) →
    Agrees enough .divergence (combineWalk fuel s l1 l2 st last)
      (TagSetModel.combineWalk k s l1 l2 st last) := by
  induction fuel with
  | zero =>
    intro k l1 l2 st last hl1 hl2 hk hfuel
    rw [combineWalk]
    by_cases hdone : l1 = 0 ∨ l1 = l2
    · rw [if_pos hdone, combine_walk_done hdone]
      exact agrees_refl _ _ _
    · rw [if_neg hdone]
      apply agrees_cut
      intro henough
      have := hfuel henough
      exact hdone (Or.inl (root_of_stop_zero h hl1.1 (by omega)))
  | succ fuel ih =>
    intro k l1 l2 st last hl1 hl2 hk hfuel
    rw [combineWalk]
    by_cases hdone : l1 = 0 ∨ l1 = l2
    · rw [if_pos hdone, combine_walk_done hdone]
      exact agrees_refl _ _ _
    have h0 : l1 ≠ 0 := fun hz => hdone (Or.inl hz)
    have he1 := parent_edge h hl1 h0
    have hs1 := he1.stop
    obtain ⟨k, rfl⟩ := Nat.exists_eq_add_one.mpr (show 0 < k by omega)
    rw [if_neg hdone, TagSetModel.combineWalk, if_neg hdone, node_at_ok hl1.1, pure_bind,
      node_at_ok hl2.1, pure_bind]
    dsimp only
    split_ifs with hb hlast hlast
    · have he2 := parent_edge h hl2 (start_pos_ne h hb)
      have hs2 := he2.stop
      exact ih k l1 _ _ _ hl1 he2.label (by omega) fun henough => by have := hfuel henough; omega
    · have he2 := parent_edge h hl2 (start_pos_ne h hb)
      have hs2 := he2.stop
      exact ih k l1 _ _ _ hl1 he2.label (by omega) fun henough => by have := hfuel henough; omega
    · exact ih k _ l2 _ _ he1.label hl2 (by omega) fun henough => by have := hfuel henough; omega
    · exact ih k _ l2 _ _ he1.label hl2 (by omega) fun henough => by have := hfuel henough; omega

theorem combine_step_agrees (h : Inv top s m) (htop : top < 2^32) {fuel cur x : ℕ}
    (hfuel : enough → 2^32 ≤ fuel) (hcur : IsLabel s m cur) (hx : IsLabel s m x) (hx0 : x ≠ 0) :
    Agrees enough .divergence (combineStep fuel s cur x) (TagSetModel.combineStep s cur x) := by
  have hstart := (parent_edge h hx hx0).start
  have hlim := h.limit x hx.1
  have henough : ∀ n, n ≤ top → enough → n ≤ fuel := by
    intro n hn he
    have := hfuel he
    omega
  rw [combineStep, TagSetModel.combineStep, node_at_ok hcur.1, pure_bind, node_at_ok hx.1,
    pure_bind]
  dsimp only
  split_ifs with hle hlt
  · rw [sub32_eq hlt.le (by omega)]
    exact insert_ones_agrees h htop fuel _ cur _ cur hcur.1 (by omega) le_rfl
      (henough _ (by omega))
  · exact agrees_refl _ _ _
  · rw [sub32_eq (by omega) (by omega), sub32_eq hstart.le (by omega)]
    exact gap_agrees h htop hcur (by omega) (henough _ (by omega)) (henough _ (by omega))

theorem combine_pop_agrees (htop : top < 2^32) {fuel : ℕ} (hfuel : enough → 2^32 ≤ fuel)
    (b : ℕ → ℕ) (st : List ℕ) : ∀ (s : TagSet) (m : Meaning) (cur : ℕ), Inv top s m →
      IsLabel s m cur → Pending s m cur b st →
      Agrees enough .divergence (combinePop fuel s cur st) (TagSetModel.combinePop s cur st) := by
  induction st with
  | nil =>
    intro s m cur h hcur hp
    exact agrees_refl _ _ _
  | cons x st ih =>
    intro s m cur h hcur hp
    obtain ⟨hx, hx0⟩ := hp.label x List.mem_cons_self
    rw [combinePop, TagSetModel.combinePop, node_at_ok hx.1, pure_bind]
    refine agrees_ensures (combine_step_agrees h htop hfuel hcur hx hx0)
      (combine_step_popped h hcur hp) ?_
    rintro ⟨s', r⟩ ⟨m', hpop⟩
    have hrest := ih _ m' r hpop.inv hpop.label hpop.pending
    dsimp only
    unfold signed at hrest
    split_ifs at hrest ⊢
    · rw [setSign, modify_at_ok hpop.inside, pure_bind]
      exact hrest
    · rw [pure_bind]
      exact hrest

theorem combine_agrees (h : Inv top s m) (htop : top < 2^32) {fuel l1 l2 : ℕ}
    (hfuel : enough → 2^33 ≤ fuel) (hl1 : IsLabel s m l1) (hl2 : IsLabel s m l2) :
    Agrees enough .divergence (combine fuel s l1 l2) (TagSetModel.combine s l1 l2) := by
  unfold combine TagSetModel.combine
  split_ifs with h1 h2
  · exact agrees_refl _ _ _
  · exact agrees_refl _ _ _
  obtain ⟨hlo, hhi, -⟩ := label_min_max hl1 hl2
  have hlim1 := h.limit _ hlo.1
  have hlim2 := h.limit _ hhi.1
  refine agrees_bind (combine_walk_agrees h fuel _ _ _ _ _ hlo hhi le_rfl fun henough => ?_) ?_
  · have := hfuel henough
    omega
  rintro ⟨l1', base', st'⟩ hwalk
  obtain ⟨l1'', base, st, hw, hend, hpath⟩ := combine_walk_spec h _ (min l1 l2) (max l1 l2) []
    MAX_LB hlo hhi le_rfl
  rw [List.append_nil] at hw
  obtain ⟨rfl, hpair⟩ := Prod.mk.inj (Except.ok.inj (hwalk.symm.trans hw))
  obtain ⟨rfl, rfl⟩ := Prod.mk.inj hpair
  have hbase : (if 0 < l1' then l1' else base') = base' := by
    rcases hend with rfl | rfl
    · rfl
    · simp
  dsimp only
  rw [hbase]
  exact combine_pop_agrees htop (fun he => by have := hfuel he; omega) _ st' s m base' h
    (up_spec h (walk_base h hpath) hhi).1 (walk_pending h hpath hlo hhi)

theorem combine_rest_agrees (htop : top < 2^32) {fuel : ℕ} (hfuel : enough → 2^33 ≤ fuel)
    (rest : List ℕ) : ∀ (s : TagSet) (m : Meaning) (cur : ℕ), Inv top s m → IsLabel s m cur →
      (∀ l ∈ rest, IsLabel s m l) →
      Agrees enough .divergence (combineRest fuel s cur rest)
        (TagSetModel.combineRest s cur rest) := by
  induction rest with
  | nil =>
    intro s m cur h hcur hrest
    exact agrees_refl _ _ _
  | cons next rest ih =>
    intro s m cur h hcur hrest
    have hnext := hrest next List.mem_cons_self
    refine agrees_ensures (combine_agrees h htop hfuel hcur hnext) (combine_spec h hcur hnext) ?_
    rintro ⟨s', r⟩ ⟨m', hc⟩
    exact ih s' m' r hc.inv hc.label fun l hl =>
      label_kept hc.kept (hrest l (List.mem_cons_of_mem next hl))

def NoWrap (s : TagSet) : Op → Prop
  | .insert offset => offset+1 < 2^32
  | .combineN lbs infer => infer = true → lbs.length = 2 ∨ lbs.length = 4 ∨ lbs.length = 8 →
      TagSetRun.shapeStart s lbs+lbs.length < 2^32
  | _ => True

theorem combine_n_agrees (h : Inv top s m) (htop : top < 2^32) {fuel : ℕ}
    (hfuel : enough → 2^33 ≤ fuel) {lbs : List ℕ} (hl : ∀ l ∈ lbs, IsLabel s m l) (infer : Bool)
    (hsum : NoWrap s (.combineN lbs infer)) :
    Agrees enough .divergence (combineN fuel s lbs infer) (TagSetModel.combineN s lbs infer) := by
  unfold combineN TagSetModel.combineN
  have hdrop := fun l hm => hl l (TagSetRun.mem_of_drop_roots (l := l) hm)
  cases heq : lbs.dropWhile (· = ROOT) with
  | nil => exact agrees_refl _ _ _
  | cons cur rest =>
    rw [heq] at hdrop
    cases rest with
    | nil => exact agrees_refl _ _ _
    | cons next rest =>
      have hcur := hdrop cur List.mem_cons_self
      have hrest := combine_rest_agrees htop hfuel (next::rest) s m cur h hcur
        fun l hm => hdrop l (List.mem_cons_of_mem cur hm)
      have h0 := TagSetRun.drop_roots_head heq
      have hlast := hl _ (TagSetRun.last_mem heq)
      cases infer with
      | false => exact hrest
      | true =>
        have hstart : TagSetRun.shapeStart s lbs = (node s cur).seg.start := by
          rw [TagSetRun.shapeStart, heq, List.headD_cons]
        have hlen := hsum rfl
        rw [hstart] at hlen
        have hless : enough → 2^32 ≤ fuel := fun he => le_trans (by decide) (hfuel he)
        have hshape := infer_shape_agrees h htop hless hcur h0 hlast hlen
        by_cases hg : Groups s cur (lbs.getLastD ROOT) lbs.length
        · refine agrees_ensures hshape (infer_shape_groups h hcur h0 hlast hg) ?_
          rintro ⟨s', shape⟩ ⟨lb, m', (rfl : shape = some lb), -⟩
          exact agrees_refl _ _ _
        · refine agrees_bind hshape fun r hr => ?_
          obtain rfl := Except.ok.inj ((infer_shape_declines s hg).symm.trans hr)
          exact hrest

theorem split_marked_agrees (h : Inv top s m) (htop : top < 2^32) {fuel lb : ℕ}
    (hfuel : enough → top ≤ fuel) (hl : IsLabel s m lb) :
    Agrees enough .divergence (splitMarked fuel s lb) (TagSetModel.splitMarked s lb) := by
  rw [splitMarked, TagSetModel.splitMarked, node_at_ok hl.1, pure_bind]
  split_ifs
  · exact split_and_op_agrees h htop hfuel hl
  · exact agrees_refl _ _ _

theorem find_loop_done (s : TagSet) (k : ℕ) (tags : List TagSeg) (last : ℕ) :
    TagSetModel.findLoop k s 0 tags last = .ok (s, tags) := by
  cases k with
  | zero => rfl
  | succ k => rfl

theorem find_loop_agrees (htop : top < 2^32) {depth : ℕ} (hdepth : enough → top ≤ depth)
    (fuel : ℕ) : ∀ (k : ℕ) (s : TagSet) (m : Meaning) (lb : ℕ) (tags : List TagSeg) (last : ℕ),
      Inv top s m → IsLabel s m lb → (node s lb).seg.stop ≤ k →
      (enough → (node s lb).seg.stop ≤ fuel) →
      Agrees enough .divergence (findLoop depth fuel s lb tags last)
        (TagSetModel.findLoop k s lb tags last) := by
  induction fuel with
  | zero =>
    intro k s m lb tags last h hl hk hfuel
    rw [findLoop]
    by_cases h0 : lb = 0
    · subst h0
      rw [if_pos rfl, find_loop_done]
      exact agrees_refl _ _ _
    · rw [if_neg h0]
      apply agrees_cut
      intro henough
      have := hfuel henough
      exact h0 (root_of_stop_zero h hl.1 (by omega))
  | succ fuel ih =>
    intro k s m lb tags last h hl hk hfuel
    rw [findLoop]
    by_cases h0 : lb = 0
    · subst h0
      rw [if_pos rfl, find_loop_done]
      exact agrees_refl _ _ _
    have hpos := (parent_edge h hl h0).stop
    obtain ⟨k, rfl⟩ := Nat.exists_eq_add_one.mpr (show 0 < k by omega)
    rw [if_neg h0, TagSetModel.findLoop, if_neg h0]
    refine agrees_ensures (split_marked_agrees h htop hdepth hl) (split_marked_spec h hl) ?_
    rintro ⟨s', r⟩ ⟨(rfl : r = lb), m', (hinv : Inv top s' m'), (hkept : Kept s m s' m')⟩
    have hl' := label_kept hkept hl
    have he := parent_edge hinv hl' h0
    have hstop := he.stop
    rw [hkept.stop r hl.1] at hstop
    have hnext : enough → (node s' (node s' r).parent).seg.stop ≤ fuel := by
      intro henough
      have := hfuel henough
      omega
    dsimp only
    rw [node_at_ok hl'.1, pure_bind]
    split_ifs
    · exact ih k s' m' _ _ _ hinv he.label (by omega) hnext
    · exact ih k s' m' _ _ _ hinv he.label (by omega) hnext

theorem find_agrees (h : Inv top s m) (htop : top < 2^32) {fuel lb : ℕ}
    (hfuel : enough → top ≤ fuel) (hl : IsLabel s m lb) :
    Agrees enough .divergence (find fuel s lb) (TagSetModel.find s lb) := by
  have hlim := h.limit lb hl.1
  refine find_loop_agrees htop hfuel fuel _ s m lb [] MAX_LB h hl le_rfl fun henough => ?_
  exact hlim.trans (hfuel henough)

theorem issue_agrees {c : Checked Fault (TagSet × ℕ)} {r : TagSetModel.Outcome (TagSet × ℕ)}
    (h : Agrees enough .divergence c r) :
    Agrees enough .divergence (issue c) (TagSetRun.issue r) :=
  agrees_bind h fun _ _ => agrees_refl _ _ _

/-- While no sum wraps, a call computes what it does on plain numbers and never
leaves the node vector. -/
theorem step_agrees (h : Inv (2^32-1) s m) {fuel : ℕ} {op : Op}
    (hl : ∀ l ∈ opLabels op, IsLabel s m l) (hsum : NoWrap s op) :
    Agrees (2^33 ≤ fuel) .divergence (step fuel s op) (TagSetRun.step s op) := by
  have htop : 2^32-1 < 2^32 := by decide
  cases op with
  | insert offset =>
    have ho : offset+1 < 2^32 := hsum
    exact issue_agrees (insert_agrees h htop (by omega) fun _ => by omega)
  | combine l1 l2 =>
    exact issue_agrees (combine_agrees h htop id (hl l1 (by simp [opLabels]))
      (hl l2 (by simp [opLabels])))
  | combineN lbs infer => exact issue_agrees (combine_n_agrees h htop id hl infer hsum)
  | inferShape2 lb len =>
    rw [step, infer_shape2_ok h htop (hl lb (by simp [opLabels])), pure_bind]
    exact agrees_refl _ _ _
  | setSign lb =>
    rw [step, setSign, modify_at_ok (hl lb (by simp [opLabels])).1, pure_bind]
    exact agrees_refl _ _ _
  | combineAnd lb =>
    rw [step, combineAnd, modify_at_ok (hl lb (by simp [opLabels])).1, pure_bind]
    exact agrees_refl _ _ _
  | splitAndOp lb =>
    exact issue_agrees (split_and_op_agrees h htop (fun _ => by omega) (hl lb (by simp [opLabels])))
  | find lb =>
    refine agrees_bind (find_agrees h htop (fun _ => by omega) (hl lb (by simp [opLabels]))) ?_
    intro r _
    exact agrees_refl _ _ _

end Agreement

section Runs

instance (s : TagSet) (op : Op) : Decidable (NoWrap s op) :=
  match op with
  | .insert offset => inferInstanceAs (Decidable (offset+1 < 2^32))
  | .combineN lbs infer => inferInstanceAs (Decidable (infer = true →
      lbs.length = 2 ∨ lbs.length = 4 ∨ lbs.length = 8 →
        TagSetRun.shapeStart s lbs+lbs.length < 2^32))
  | .combine .. | .inferShape2 .. | .setSign _ | .combineAnd _ | .splitAndOp _ | .find _ =>
    isTrue trivial

def Safe (σ : Session) (op : Op) : Prop := Valid σ op ∧ NoWrap σ.tags op

instance (σ : Session) (op : Op) : Decidable (Safe σ op) := inferInstanceAs (Decidable (_ ∧ _))

theorem offset_below {s : TagSet} {op : Op} (h : NoWrap s op) : opOffset op < 2^32-1 := by
  cases op with
  | insert offset =>
    have ho : offset+1 < 2^32 := h
    exact Nat.lt_sub_of_add_lt ho
  | _ => exact (by decide : 0 < 2^32-1)

theorem call_cases {fuel : ℕ} {σ τ : Session} {op : Op} (h : call fuel σ op = some τ) :
    ∃ s out, step fuel σ.tags op = checked (.ok (s, out)) ∧ τ = ⟨s, ⟨op, out⟩::σ.calls⟩ := by
  unfold call at h
  split at h
  · rename_i s out heq
    exact ⟨s, out, heq, (Option.some.inj h).symm⟩
  · cases h

theorem call_agrees {fuel : ℕ} {σ τ : Session} {op : Op} (hs : TagSetRun.Sound (2^32-1) σ)
    (ha : Safe σ op) (hc : call fuel σ op = some τ) : TagSetRun.call σ op = some τ := by
  obtain ⟨m, hinv, hlabels⟩ := hs
  obtain ⟨s, out, hstep, rfl⟩ := call_cases hc
  have hag : Agrees (2^33 ≤ fuel) .divergence (step fuel σ.tags op) (TagSetRun.step σ.tags op) :=
    step_agrees hinv (fun l hl => hlabels l (ha.1.1 l hl)) ha.2
  rw [TagSetRun.call, agrees_value hag hstep]

theorem run_sound {fuel : ℕ} {σ : Session}
    (h : Reachable (call fuel) Safe TagSetRun.newSession σ) : TagSetRun.Sound (2^32-1) σ :=
  reachable_invariant (TagSetRun.new_session_sound _)
    (fun _ _ _ hs ha hc =>
      TagSetRun.call_sound hs ha.1.1 (offset_below ha.2) (call_agrees hs ha hc)) h

end Runs

end Parmesan.TagSetMachine
