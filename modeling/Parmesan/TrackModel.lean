import Parmesan.CondModel
import Parmesan.Execution
import Parmesan.TagSetRun

/-!
# The tracker's log

`runtime/src/track.rs`, `logger.rs` and `len_label.rs`: the handlers that the
tracking build calls at every comparison, switch, compare function and
exploitable value, and the records they append to the log. Every option is a
run that may panic. Machine words are reduced where the source can wrap them.
-/

set_option autoImplicit false

namespace Parmesan.TrackModel
open Parmesan.CondModel Parmesan.Execution Parmesan.TagSetModel Parmesan.TagSetRun

def MAX_COND_ORDER : ℕ := 16

def NORMAL_LABEL_WIDTH : ℕ := 22
def MAX_NORMAL_LABEL : ℕ := 2^22-1
def MAX_LEN_LABEL : ℕ := 2^10-1

def isLenLabel (lb : ℕ) : Bool := MAX_NORMAL_LABEL < lb
def getLenLabel (lb : ℕ) : ℕ := (lb >>> NORMAL_LABEL_WIDTH) &&& MAX_LEN_LABEL
def getNormalLabel (lb : ℕ) : ℕ := lb &&& MAX_NORMAL_LABEL

structure LogData where
  condList : List CondStmtBase
  tags : ℕ → Option (List TagSeg)
  magicBytes : ℕ → Option (List UInt8 × List UInt8)

/-- The tag set, the length labels handed out, the log, and how often each
comparison was logged in each context. -/
structure Tracker where
  tagSet : TagSet
  lenInfo : List (ℕ × ℕ)
  data : LogData
  orderMap : ℕ × ℕ → ℕ

def newTracker : Tracker where
  tagSet := newTagSet
  lenInfo := [(0, 1)]
  data := ⟨[], fun _ => none, fun _ => none⟩
  orderMap := fun _ => 0

def getFatLabel (normalLb lenLb : ℕ) : ℕ := (lenLb <<< NORMAL_LABEL_WIDTH) % 2^32 ||| normalLb

/-- `__angora_get_len_label`: the state and the label it returns. -/
def newLenLabel (t : Tracker) (offset size : ℕ) : Tracker × ℕ :=
  if t.lenInfo.length < MAX_LEN_LABEL then
    ({ t with lenInfo := t.lenInfo ++ [(offset, size)] }, getFatLabel 0 t.lenInfo.length)
  else (t, getFatLabel 0 0)

/-- The record for the length that a length label stands for. -/
def lenCond (lenInfo : List (ℕ × ℕ)) (lenLb : ℕ) (cond : CondStmtBase) :
    Option (CondStmtBase × Option CondStmtBase) :=
  if MAX_LEN_LABEL < lenLb then some (cond, none)
  else (lenInfo[lenLb]?).map fun info =>
    (cond, some { cond with op := COND_LEN_OP, lb1 := info.1, lb2 := info.2 })

def getLenCond (lenInfo : List (ℕ × ℕ)) (cond : CondStmtBase) :
    Option (CondStmtBase × Option CondStmtBase) :=
  if isLenLabel cond.lb1 then
    lenCond lenInfo (getLenLabel cond.lb1) { cond with lb1 := getNormalLabel cond.lb1 }
  else if isLenLabel cond.lb2 then
    lenCond lenInfo (getLenLabel cond.lb2) { cond with lb2 := getNormalLabel cond.lb2 }
  else some (cond, none)

def tagSetFind (s : TagSet) (lb : ℕ) : Option (TagSet × List TagSeg) :=
  if getNormalLabel lb < size s then (find s (getNormalLabel lb)).toOption else none

def tagSetGetSign (s : TagSet) (lb : ℕ) : Bool := getSign s (getNormalLabel lb)

def inferEqSign (s : TagSet) (op lb1 lb2 : ℕ) : ℕ :=
  if op = COND_ICMP_EQ_OP ∧ (0 < lb1 ∧ tagSetGetSign s lb1 ∨ 0 < lb2 ∧ tagSetGetSign s lb2)
  then op ||| COND_SIGN_MASK else op

def inferShape (t : Tracker) (lb len : ℕ) : Option Tracker :=
  if lb = 0 then some t
  else if getNormalLabel lb < size t.tagSet then
    some { t with tagSet := inferShape2 t.tagSet (getNormalLabel lb) len }
  else none

def saveTag (t : Tracker) (lb : ℕ) : Option Tracker :=
  if lb = 0 then some t
  else (tagSetFind t.tagSet lb).map fun r =>
    { t with
      tagSet := r.1
      data := { t.data with
        tags := if t.data.tags lb = none then Function.update t.data.tags lb (some r.2)
          else t.data.tags } }

def saveMagicBytes (t : Tracker) (bytes : List UInt8 × List UInt8) : Tracker :=
  if 0 < t.data.condList.length then
    { t with data := { t.data with
        magicBytes := Function.update t.data.magicBytes (t.data.condList.length-1) (some bytes) } }
  else t

def orderKey (cond : CondStmtBase) : ℕ × ℕ := (cond.cmpid, cond.context)

-- Of the cases of a switch only the first one comes with order 0.
def nextOrder (t : Tracker) (cond : CondStmtBase) : ℕ :=
  if cond.order = 0 then (t.orderMap (orderKey cond)+1) % 2^32 else t.orderMap (orderKey cond)

def getOrder (t : Tracker) (cond : CondStmtBase) : Tracker × CondStmtBase × ℕ :=
  let order := nextOrder t cond
  ({ t with orderMap := Function.update t.orderMap (orderKey cond) order },
    { cond with order := (cond.order+order) % 2^32 }, order)

def lenRecord (lenCond : Option CondStmtBase) (order : ℕ) : List CondStmtBase :=
  (lenCond.map fun c => { c with order := 0x10000+order }).toList

/-- The part of `save` after the record is complete. -/
def pushCond (t : Tracker) (cond : CondStmtBase) (lenCond : Option CondStmtBase) (order : ℕ) :
    Option Tracker :=
  if order ≤ MAX_COND_ORDER then do
    let t ← saveTag t cond.lb1
    let t ← saveTag t cond.lb2
    some { t with data := { t.data with
      condList := t.data.condList ++ cond :: lenRecord lenCond order } }
  else some t

def isOrdered (cond : CondStmtBase) : Bool := cond.op < COND_AFL_OP || cond.op = COND_FN_OP

def save (t : Tracker) (cond : CondStmtBase) : Option Tracker :=
  if cond.lb1 = 0 ∧ cond.lb2 = 0 then some t else do
    let r ← getLenCond t.lenInfo cond
    let g := if isOrdered r.1 then getOrder t r.1 else (t, r.1, 0)
    pushCond g.1 g.2.1 r.2 g.2.2

structure CmpCall where
  cmpid : ℕ
  context : ℕ
  lastCallsite : ℕ
  size : ℕ
  op : ℕ
  arg1 : ℕ
  arg2 : ℕ
  condition : ℕ
  lb1 : ℕ
  lb2 : ℕ
  deriving DecidableEq, Repr

structure SwitchCall where
  cmpid : ℕ
  context : ℕ
  lastCallsite : ℕ
  size : ℕ
  condition : ℕ
  args : List ℕ
  lb : ℕ
  deriving DecidableEq, Repr

/-- `parg1` and `parg2` are the bytes from the two pointers on; the labels are
what `dfsan_read_label` finds on the operands. -/
structure FnCall where
  cmpid : ℕ
  context : ℕ
  lastCallsite : ℕ
  size : ℕ
  parg1 : List UInt8
  parg2 : List UInt8
  lb1 : ℕ
  lb2 : ℕ
  deriving DecidableEq, Repr

structure ExploitCall where
  cmpid : ℕ
  context : ℕ
  lastCallsite : ℕ
  size : ℕ
  op : ℕ
  val : ℕ
  lb : ℕ
  deriving DecidableEq, Repr

def logCmpCallsite (t : Tracker) (cmpid context lastCallsite condition op size lb1 lb2 arg1 arg2 : ℕ) :
    Option Tracker :=
  save t
    { cmpid, context, lastCallsite, order := 0, belong := 0, condition, level := 0, op, size, lb1,
      lb2, arg1, arg2 }

def traceCmp (t : Tracker) (c : CmpCall) : Option Tracker :=
  if c.lb1 = 0 ∧ c.lb2 = 0 then some t else do
    let op := inferEqSign t.tagSet c.op c.lb1 c.lb2
    let t ← inferShape t c.lb1 c.size
    let t ← inferShape t c.lb2 c.size
    logCmpCallsite t c.cmpid c.context c.lastCallsite c.condition op c.size c.lb1 c.lb2 c.arg1 c.arg2

def switchOp (s : TagSet) (lb : ℕ) : ℕ :=
  if tagSetGetSign s lb then COND_SW_OP ||| COND_SIGN_MASK else COND_SW_OP

def switchCase (c : SwitchCall) (op i arg : ℕ) : CondStmtBase where
  cmpid := c.cmpid
  context := c.context
  lastCallsite := c.lastCallsite
  order := (i <<< 16) % 2^32
  belong := 0
  condition := if arg = c.condition then COND_DONE_ST else COND_FALSE_ST
  level := 0
  op := op
  size := c.size
  lb1 := c.lb
  lb2 := 0
  arg1 := c.condition
  arg2 := arg

def traceSwitch (t : Tracker) (c : SwitchCall) : Option Tracker :=
  if c.lb = 0 then some t else do
    let t ← inferShape t c.lb c.size
    (c.args.mapIdx (switchCase c (switchOp t.tagSet c.lb))).foldlM save t

def strlen (p : List UInt8) : ℕ := (p.takeWhile (· ≠ 0)).length

def arglen (size : ℕ) (p : List UInt8) : ℕ := if size = 0 then strlen p else size

def operands (c : FnCall) : List UInt8 × List UInt8 :=
  (c.parg1.take (arglen c.size c.parg1), c.parg2.take (arglen c.size c.parg2))

def fnCond (c : FnCall) : CondStmtBase where
  cmpid := c.cmpid
  context := c.context
  lastCallsite := c.lastCallsite
  order := 0
  belong := 0
  condition := COND_FALSE_ST
  level := 0
  op := COND_FN_OP
  size := if 0 < c.lb1 then arglen c.size c.parg2 % 2^32 else arglen c.size c.parg1 % 2^32
  lb1 := c.lb1
  lb2 := if 0 < c.lb1 then 0 else c.lb2
  arg1 := 0
  arg2 := 0

def traceFn (t : Tracker) (c : FnCall) : Option Tracker :=
  if c.lb1 = 0 ∧ c.lb2 = 0 then some t else do
    let t ← save t (fnCond c)
    some (saveMagicBytes t (operands c))

def traceExploitVal (t : Tracker) (c : ExploitCall) : Option Tracker :=
  if isLenLabel c.lb ∨ c.lb = 0 then some t
  else logCmpCallsite t c.cmpid c.context c.lastCallsite COND_FALSE_ST c.op c.size c.lb 0 c.val 0

/-- The handler calls, and what the program does to the labels between them. -/
inductive Event where
  | cmp (c : CmpCall)
  | switch (c : SwitchCall)
  | fn (c : FnCall)
  | exploit (c : ExploitCall)
  | label (op : Op)
  | lenLabel (offset size : ℕ)
  deriving DecidableEq, Repr

def labelStep (t : Tracker) (op : Op) : Option Tracker :=
  if ∀ l ∈ opLabels op, l < size t.tagSet then
    (TagSetRun.step t.tagSet op).toOption.map fun r => { t with tagSet := r.1 }
  else none

def handle (t : Tracker) : Event → Option Tracker
  | .cmp c => traceCmp t c
  | .switch c => traceSwitch t c
  | .fn c => traceFn t c
  | .exploit c => traceExploitVal t c
  | .label op => labelStep t op
  | .lenLabel offset size => some (newLenLabel t offset size).1

def run (events : List Event) : Option Tracker := replay handle (fun _ _ => True) newTracker events

structure SameLog (t t' : Tracker) : Prop where
  condList : t'.data.condList = t.data.condList
  magicBytes : t'.data.magicBytes = t.data.magicBytes
  orderMap : t'.orderMap = t.orderMap

theorem same_log_refl (t : Tracker) : SameLog t t := ⟨rfl, rfl, rfl⟩

theorem same_log_trans {t t' t'' : Tracker} (h : SameLog t t') (h' : SameLog t' t'') :
    SameLog t t'' :=
  ⟨h'.condList.trans h.condList, h'.magicBytes.trans h.magicBytes, h'.orderMap.trans h.orderMap⟩

theorem infer_shape_same {t t' : Tracker} {lb len : ℕ} (h : inferShape t lb len = some t') :
    SameLog t t' := by
  unfold inferShape at h
  split_ifs at h with h0
  · obtain rfl := Option.some.inj h
    exact same_log_refl t
  · obtain rfl := Option.some.inj h
    exact ⟨rfl, rfl, rfl⟩

theorem save_tag_same {t t' : Tracker} {lb : ℕ} (h : saveTag t lb = some t') : SameLog t t' := by
  unfold saveTag at h
  by_cases h0 : lb = 0
  · rw [if_pos h0] at h
    obtain rfl := Option.some.inj h
    exact same_log_refl t
  · rw [if_neg h0] at h
    obtain ⟨r, -, rfl⟩ := Option.map_eq_some_iff.mp h
    exact ⟨rfl, rfl, rfl⟩

theorem label_step_same {t t' : Tracker} {op : Op} (h : labelStep t op = some t') :
    SameLog t t' := by
  unfold labelStep at h
  split_ifs at h with h0
  obtain ⟨r, -, rfl⟩ := Option.map_eq_some_iff.mp h
  exact ⟨rfl, rfl, rfl⟩

theorem new_len_label_same (t : Tracker) (offset size : ℕ) :
    SameLog t (newLenLabel t offset size).1 := by
  unfold newLenLabel
  split_ifs
  · exact ⟨rfl, rfl, rfl⟩
  · exact same_log_refl t

/-- The two records agree where the numbering of the log looks. -/
structure SameSite (cond cond' : CondStmtBase) : Prop where
  cmpid : cond'.cmpid = cond.cmpid
  context : cond'.context = cond.context
  order : cond'.order = cond.order
  op : cond'.op = cond.op

theorem len_cond_site {lenInfo : List (ℕ × ℕ)} {lenLb : ℕ} {cond : CondStmtBase}
    {r : CondStmtBase × Option CondStmtBase} (h : lenCond lenInfo lenLb cond = some r) :
    r.1 = cond ∧ ∀ c ∈ r.2, c.op = COND_LEN_OP := by
  unfold lenCond at h
  split_ifs at h
  · obtain rfl := Option.some.inj h
    exact ⟨rfl, by simp⟩
  · obtain ⟨info, -, rfl⟩ := Option.map_eq_some_iff.mp h
    exact ⟨rfl, by simp⟩

theorem get_len_cond_site {lenInfo : List (ℕ × ℕ)} {cond : CondStmtBase}
    {r : CondStmtBase × Option CondStmtBase} (h : getLenCond lenInfo cond = some r) :
    SameSite cond r.1 ∧ (∀ c ∈ r.2, c.op = COND_LEN_OP) ∧
      (isLenLabel cond.lb1 = false → isLenLabel cond.lb2 = false → r.2 = none) := by
  unfold getLenCond at h
  split_ifs at h with h1 h2
  · obtain ⟨hc, hop⟩ := len_cond_site h
    rw [hc]
    exact ⟨⟨rfl, rfl, rfl, rfl⟩, hop, fun hf => absurd h1 (by simp [hf])⟩
  · obtain ⟨hc, hop⟩ := len_cond_site h
    rw [hc]
    exact ⟨⟨rfl, rfl, rfl, rfl⟩, hop, fun _ hf => absurd h2 (by simp [hf])⟩
  · obtain rfl := Option.some.inj h
    exact ⟨⟨rfl, rfl, rfl, rfl⟩, by simp, fun _ _ => rfl⟩

/-- The counter that `save` compares with the cap. -/
def savedOrder (t : Tracker) (cond : CondStmtBase) : ℕ :=
  if isOrdered cond then nextOrder t cond else 0

/-- What a call of `save` on a tainted condition does to the log: nothing
beyond the cap, else one record and perhaps one more for a length. -/
structure Saved (t : Tracker) (cond : CondStmtBase) (t' : Tracker) (record : CondStmtBase)
    (extra : List CondStmtBase) : Prop where
  magicBytes : t'.data.magicBytes = t.data.magicBytes
  orderMap : t'.orderMap =
    if isOrdered cond then Function.update t.orderMap (orderKey cond) (nextOrder t cond)
    else t.orderMap
  condList : t'.data.condList = t.data.condList ++
    if savedOrder t cond ≤ MAX_COND_ORDER then record :: extra else []
  cmpid : record.cmpid = cond.cmpid
  context : record.context = cond.context
  op : record.op = cond.op
  order : isOrdered cond → record.order = (cond.order+nextOrder t cond) % 2^32
  extraOp : ∀ c ∈ extra, c.op = COND_LEN_OP
  noExtra : isLenLabel cond.lb1 = false → isLenLabel cond.lb2 = false → extra = []

theorem push_cond_spec {t t' : Tracker} {cond : CondStmtBase} {lenCond : Option CondStmtBase}
    {order : ℕ} (h : pushCond t cond lenCond order = some t') :
    t'.data.magicBytes = t.data.magicBytes ∧ t'.orderMap = t.orderMap ∧
    t'.data.condList = t.data.condList ++ if order ≤ MAX_COND_ORDER then
      cond :: lenRecord lenCond order else [] := by
  unfold pushCond at h
  split_ifs at h ⊢ with ho
  · simp only [bind, Option.bind_eq_some_iff] at h
    obtain ⟨t1, h1, t2, h2, h3⟩ := h
    obtain rfl := Option.some.inj h3
    have hsame := same_log_trans (save_tag_same h1) (save_tag_same h2)
    exact ⟨hsame.magicBytes, hsame.orderMap, by rw [← hsame.condList]⟩
  · obtain rfl := Option.some.inj h
    exact ⟨rfl, rfl, by simp⟩

theorem get_len_cond_key {lenInfo : List (ℕ × ℕ)} {cond : CondStmtBase}
    {r : CondStmtBase × Option CondStmtBase} (h : getLenCond lenInfo cond = some r) :
    ∀ c ∈ r.2, orderKey c = orderKey cond := by
  have hlen : ∀ lenLb cond', lenCond lenInfo lenLb cond' = some r →
      orderKey cond' = orderKey cond → ∀ c ∈ r.2, orderKey c = orderKey cond := by
    intro lenLb cond' h' hkey
    rw [← hkey]
    unfold lenCond at h'
    split_ifs at h'
    · obtain rfl := Option.some.inj h'
      simp
    · obtain ⟨info, -, rfl⟩ := Option.map_eq_some_iff.mp h'
      simp [orderKey]
  unfold getLenCond at h
  split_ifs at h
  · exact hlen _ _ h rfl
  · exact hlen _ _ h rfl
  · obtain rfl := Option.some.inj h
    simp

/-- The record of a length, and the order of a record that is not numbered. -/
structure Extra (t : Tracker) (cond record : CondStmtBase) (extra : List CondStmtBase) : Prop where
  key : ∀ c ∈ extra, orderKey c = orderKey cond
  order : ∀ c ∈ extra, c.order = 0x10000+savedOrder t cond
  single : extra.length ≤ 1
  unordered : isOrdered cond = false → record.order = cond.order

theorem len_record_extra {t : Tracker} {cond record : CondStmtBase}
    {lenCond : Option CondStmtBase} (hkey : ∀ c ∈ lenCond, orderKey c = orderKey cond)
    (hun : isOrdered cond = false → record.order = cond.order) :
    Extra t cond record (lenRecord lenCond (savedOrder t cond)) := by
  cases lenCond with
  | none => exact ⟨by simp [lenRecord], by simp [lenRecord], by simp [lenRecord], hun⟩
  | some c =>
    have hc : orderKey c = orderKey cond := hkey c rfl
    refine ⟨?_, ?_, by simp [lenRecord], hun⟩
    · intro c' hc'
      obtain rfl := List.mem_singleton.mp hc'
      exact hc
    · intro c' hc'
      obtain rfl := List.mem_singleton.mp hc'
      rfl

theorem save_full {t t' : Tracker} {cond : CondStmtBase} (hl : ¬ (cond.lb1 = 0 ∧ cond.lb2 = 0))
    (h : save t cond = some t') :
    ∃ record extra, Saved t cond t' record extra ∧ Extra t cond record extra := by
  rw [save, if_neg hl] at h
  simp only [bind, Option.bind_eq_some_iff] at h
  obtain ⟨r, hr, h⟩ := h
  obtain ⟨hsite, hop, hnone⟩ := get_len_cond_site hr
  have hkey : orderKey r.1 = orderKey cond := by rw [orderKey, hsite.cmpid, hsite.context]; rfl
  have hnext : nextOrder t r.1 = nextOrder t cond := by rw [nextOrder, hkey, hsite.order]; rfl
  have hord : isOrdered r.1 = isOrdered cond := by rw [isOrdered, hsite.op]; rfl
  have hlen : ∀ (order : ℕ), ∀ c ∈ lenRecord r.2 order, c.op = COND_LEN_OP := by
    intro order c hc
    rw [lenRecord, Option.mem_toList] at hc
    obtain ⟨c', hc', rfl⟩ := Option.map_eq_some_iff.mp hc
    exact hop c' hc'
  have hno : ∀ order : ℕ, isLenLabel cond.lb1 = false → isLenLabel cond.lb2 = false →
      lenRecord r.2 order = [] := by
    intro order h1 h2
    rw [hnone h1 h2]
    rfl
  cases ho : isOrdered cond with
  | true =>
    have hsaved : savedOrder t cond = nextOrder t cond := by rw [savedOrder, ho, if_pos rfl]
    rw [hord, ho, if_pos rfl] at h
    obtain ⟨hm, hmap, hlist⟩ := push_cond_spec h
    refine ⟨(getOrder t r.1).2.1, lenRecord r.2 (savedOrder t cond),
      ⟨hm, ?_, ?_, hsite.cmpid, hsite.context, hsite.op, ?_, hlen _, hno _⟩,
      len_record_extra (get_len_cond_key hr) fun hf => absurd (ho.symm.trans hf) (by decide)⟩
    · rw [hmap, ho, if_pos rfl]
      simp only [getOrder, hkey, hnext]
    · rw [hlist, hsaved]
      simp only [getOrder, hnext]
    · intro _
      simp only [getOrder, hnext, hsite.order]
  | false =>
    have hzero : savedOrder t cond = 0 := by rw [savedOrder, ho, if_neg (by decide)]
    rw [hord, ho, if_neg (by decide)] at h
    obtain ⟨hm, hmap, hlist⟩ := push_cond_spec h
    refine ⟨r.1, lenRecord r.2 (savedOrder t cond),
      ⟨hm, ?_, ?_, hsite.cmpid, hsite.context, hsite.op, ?_, hlen _, hno _⟩,
      len_record_extra (get_len_cond_key hr) fun _ => hsite.order⟩
    · rw [hmap, ho, if_neg (by decide)]
    · rw [hlist, hzero]
    · intro hf
      rw [ho] at hf
      cases hf

theorem save_spec {t t' : Tracker} {cond : CondStmtBase} (hl : ¬ (cond.lb1 = 0 ∧ cond.lb2 = 0))
    (h : save t cond = some t') : ∃ record extra, Saved t cond t' record extra := by
  obtain ⟨record, extra, hs, -⟩ := save_full hl h
  exact ⟨record, extra, hs⟩

theorem save_cases {t t' : Tracker} {cond : CondStmtBase} (h : save t cond = some t') :
    t' = t ∨ ∃ record extra, Saved t cond t' record extra := by
  by_cases hl : cond.lb1 = 0 ∧ cond.lb2 = 0
  · rw [save, if_pos hl] at h
    exact Or.inl (Option.some.inj h).symm
  · exact Or.inr (save_spec hl h)

end Parmesan.TrackModel
