import Parmesan.TagSetInsert
import Mathlib.Logic.Relation

/-!
# A node is determined by its path

Two nodes with the same end and the same offsets are one node, and a node that
exists is found again without a new one being made.
-/

set_option autoImplicit false

namespace Parmesan.TagSetCanonical
open Parmesan.TagSetModel Parmesan.TagSetInvariant Parmesan.TagSetInsert Parmesan.Outcome

variable {top : ℕ} {s : TagSet} {m : Meaning}

def Edge (s : TagSet) (n c : ℕ) : Prop :=
  n < size s ∧ c ≠ 0 ∧ ((node s n).left = c ∨ (node s n).right = c)

def Above (s : TagSet) : ℕ → ℕ → Prop := Relation.ReflTransGen (Edge s)

structure Precedes (s : TagSet) (m : Meaning) (a b : ℕ) : Prop where
  lt : a < size s
  stop : (node s a).seg.stop < (node s b).seg.stop
  bits : m.bits a = m.bits b ∩ Set.Iio (node s a).seg.stop

def Toward (s : TagSet) (m : Meaning) (n b c : ℕ) : Prop :=
  c ≠ 0 ∧ (((node s n).seg.stop ∈ m.bits b ∧ (node s n).right = c) ∨
    ((node s n).seg.stop ∉ m.bits b ∧ (node s n).left = c))

theorem edge_stop (h : Inv top s m) {n c : ℕ} (he : Edge s n c) :
    (node s n).seg.stop < (node s c).seg.stop := by
  obtain ⟨hn, h0, rfl | rfl⟩ := he
  · exact (h.zero n hn h0).stop
  · exact (h.one n hn h0).stop

theorem edge_precedes (h : Inv top s m) {n c : ℕ} (he : Edge s n c) : Precedes s m n c := by
  refine ⟨he.1, edge_stop h he, ?_⟩
  have hlt := bits_lt h n he.1
  obtain ⟨hn, h0, rfl | rfl⟩ := he
  · rw [(h.zero n hn h0).bits]
    ext y
    exact ⟨fun hy => ⟨hy, hlt y hy⟩, fun hy => hy.1⟩
  · rw [(h.one n hn h0).bits]
    ext y
    constructor
    · exact fun hy => ⟨Or.inl hy, hlt y hy⟩
    · rintro ⟨hy | hy, hs⟩
      · exact hy
      · have := hy.1
        simp only [Set.mem_Iio] at hs
        omega

theorem edge_toward (h : Inv top s m) {n c : ℕ} (he : Edge s n c) : Toward s m n c c := by
  have hlt := bits_lt h n he.1
  obtain ⟨hn, h0, hc | hc⟩ := he
  · subst hc
    refine ⟨h0, Or.inr ⟨?_, rfl⟩⟩
    rw [(h.zero n hn h0).bits]
    intro hy
    have := hlt _ hy
    omega
  · subst hc
    refine ⟨h0, Or.inl ⟨?_, rfl⟩⟩
    have hs := (h.one n hn h0).stop
    rw [(h.one n hn h0).bits]
    exact Or.inr ⟨le_refl _, hs⟩

theorem above_stop (h : Inv top s m) {a b : ℕ} (hab : Above s a b) :
    a = b ∨ (node s a).seg.stop < (node s b).seg.stop := by
  induction hab with
  | refl => exact Or.inl rfl
  | tail _ he ih =>
    have hs := edge_stop h he
    right
    rcases ih with rfl | ih
    · exact hs
    · omega

theorem toward_unique {n a b c d : ℕ} (hc : Toward s m n a c) (hd : Toward s m n b d)
    (hab : (node s n).seg.stop ∈ m.bits a ↔ (node s n).seg.stop ∈ m.bits b) : c = d := by
  obtain ⟨-, ⟨hca, hc⟩ | ⟨hca, hc⟩⟩ := hc <;> obtain ⟨-, ⟨hdb, hd⟩ | ⟨hdb, hd⟩⟩ := hd
  · exact hc.symm.trans hd
  · exact absurd (hab.mp hca) hdb
  · exact absurd (hab.mpr hdb) hca
  · exact hc.symm.trans hd

theorem precedes_mem {a b y : ℕ} (h : Precedes s m a b) (hy : y < (node s a).seg.stop) :
    y ∈ m.bits a ↔ y ∈ m.bits b := by
  rw [h.bits]
  exact ⟨fun hm => hm.1, fun hm => ⟨hm, hy⟩⟩

theorem root_of_stop_zero (h : Inv top s m) {a : ℕ} (ha : a < size s)
    (hs : (node s a).seg.stop = 0) : a = 0 := by
  by_contra h0
  obtain ⟨n, hn, hc⟩ := h.tree a ha h0
  have := edge_stop h ⟨hn, h0, hc⟩
  omega

/-- Both facts at once, by induction on the end of the path: the walk towards
`b` from a node on its path meets `b`, and the path of `b` determines `b`. -/
theorem path_walk (h : Inv top s m) (k : ℕ) : ∀ b, b < size s → (node s b).seg.stop = k →
    (∀ n, Precedes s m n b → ∃ c, Toward s m n b c ∧ Above s c b) ∧
    (∀ a, a < size s → (node s a).seg.stop = k → m.bits a = m.bits b → a = b) := by
  induction k using Nat.strong_induction_on with
  | _ k ih =>
    have walk : ∀ b, b < size s → (node s b).seg.stop = k →
        ∀ n, Precedes s m n b → ∃ c, Toward s m n b c ∧ Above s c b := by
      intro b hb hk n hn
      have hn1 := hn.stop
      have hb0 : b ≠ 0 := by
        rintro rfl
        rw [h.root_stop] at hn1
        omega
      obtain ⟨p, hp, hc⟩ := h.tree b hb hb0
      have he : Edge s p b := ⟨hp, hb0, hc⟩
      have hpb := edge_precedes h he
      have hp1 := hpb.stop
      rcases Nat.lt_trichotomy (node s n).seg.stop (node s p).seg.stop with hlt | heq | hgt
      · have hnp : Precedes s m n p := by
          refine ⟨hn.lt, hlt, ?_⟩
          rw [hn.bits, hpb.bits, Set.inter_assoc, Set.Iio_inter_Iio, min_eq_right (le_of_lt hlt)]
        obtain ⟨c, htc, hac⟩ := (ih _ (by omega) p hp rfl).1 n hnp
        refine ⟨c, ⟨htc.1, ?_⟩, hac.tail he⟩
        have hmem := precedes_mem hpb hlt
        rcases htc.2 with ⟨hm, hr⟩ | ⟨hm, hl⟩
        · exact Or.inl ⟨hmem.mp hm, hr⟩
        · exact Or.inr ⟨fun hb => hm (hmem.mpr hb), hl⟩
      · have hbits : m.bits n = m.bits p := by rw [hn.bits, hpb.bits, heq]
        have hnp := (ih _ (by omega) p hp rfl).2 n hn.lt heq hbits
        subst hnp
        exact ⟨b, edge_toward h he, Relation.ReflTransGen.refl⟩
      · have hpn : Precedes s m p n := by
          refine ⟨hp, hgt, ?_⟩
          rw [hn.bits, hpb.bits, Set.inter_assoc, Set.Iio_inter_Iio, min_eq_right (le_of_lt hgt)]
        obtain ⟨c, htc, hac⟩ := (ih _ (by omega) n hn.lt rfl).1 p hpn
        have hcb : c = b := toward_unique htc (edge_toward h he) (precedes_mem hn hgt)
        subst hcb
        rcases above_stop h hac with rfl | hs
        · omega
        · omega
    intro b hb hk
    refine ⟨walk b hb hk, ?_⟩
    intro a ha hak hbits
    by_cases hb0 : b = 0
    · subst hb0
      rw [h.root_stop] at hk
      exact root_of_stop_zero h ha (by omega)
    obtain ⟨p, hp, hc⟩ := h.tree b hb hb0
    have he : Edge s p b := ⟨hp, hb0, hc⟩
    have hpb := edge_precedes h he
    have hp1 := hpb.stop
    have hpa : Precedes s m p a := ⟨hp, by omega, by rw [hbits, hpb.bits]⟩
    obtain ⟨c, htc, hac⟩ := walk a ha hak p hpa
    have hcb : c = b := toward_unique htc (edge_toward h he) (by rw [hbits])
    subst hcb
    rcases above_stop h hac with hca | hs
    · exact hca.symm
    · omega

theorem node_unique (h : Inv top s m) {a b : ℕ} (ha : a < size s) (hb : b < size s)
    (hstop : (node s a).seg.stop = (node s b).seg.stop) (hbits : m.bits a = m.bits b) : a = b :=
  (path_walk h _ b hb rfl).2 a ha hstop hbits

theorem toward_exists (h : Inv top s m) {n b : ℕ} (hb : b < size s) (hn : Precedes s m n b) :
    ∃ c, Toward s m n b c ∧ Above s c b :=
  (path_walk h _ b hb rfl).1 n hn

theorem label_stop (h : Inv top s m) {l : ℕ} (hl : IsLabel s m l) (h0 : l ≠ 0) :
    (node s l).seg.stop-1 ∈ m.bits l ∧ ∀ y ∈ m.bits l, y ≤ (node s l).seg.stop-1 := by
  have he := parent_edge h hl h0
  have hs := he.start
  constructor
  · rw [he.bits]
    exact Or.inr ⟨by omega, by omega⟩
  · intro y hy
    have := bits_lt h l hl.1 y hy
    omega

/-- Labels are canonical: a label is determined by the offsets it stands for. -/
theorem label_unique (h : Inv top s m) {a b : ℕ} (ha : IsLabel s m a) (hb : IsLabel s m b)
    (hbits : m.bits a = m.bits b) : a = b := by
  by_cases ha0 : a = 0
  · subst ha0
    by_contra hb0
    have hm := (label_stop h hb (Ne.symm hb0)).1
    rw [← hbits, h.root_bits] at hm
    exact hm
  by_cases hb0 : b = 0
  · subst hb0
    have hm := (label_stop h ha ha0).1
    rw [hbits, h.root_bits] at hm
    exact absurd hm (Set.notMem_empty _)
  have hsa := label_stop h ha ha0
  have hsb := label_stop h hb hb0
  have h1 := hsb.2 _ (hbits ▸ hsa.1)
  have h2 := hsa.2 _ (hbits ▸ hsb.1)
  have h3 := (parent_edge h ha ha0).stop
  have h4 := (parent_edge h hb hb0).stop
  exact node_unique h ha.1 hb.1 (by omega) hbits

theorem toward_stop (h : Inv top s m) {n b : ℕ} (hb : b < size s) (hn : Precedes s m n b) :
    ∃ c, Toward s m n b c ∧ (node s c).seg.stop ≤ (node s b).seg.stop := by
  obtain ⟨c, htc, hac⟩ := toward_exists h hb hn
  refine ⟨c, htc, ?_⟩
  rcases above_stop h hac with rfl | hs
  · exact le_refl _
  · exact le_of_lt hs

theorem zeros_loop_existing (fuel : ℕ) (h : Inv top s m) {z : ℕ} (hz : z < size s) :
    ∀ cur n last, cur < size s → n ≤ fuel → (node s z).seg.stop = (node s cur).seg.stop+n →
      m.bits z = m.bits cur → insertNZerosLoop fuel s cur n last = .ok (s, z) := by
  induction fuel with
  | zero =>
    intro cur n last hcur hn hs hb
    have h0 : n = 0 := by omega
    subst h0
    rw [node_unique h hz hcur hs hb]
    rfl
  | succ fuel ih =>
    intro cur n last hcur hn hs hb
    unfold insertNZerosLoop
    by_cases h0 : n = 0
    · subst h0
      rw [if_pos rfl, node_unique h hz hcur hs hb]
    rw [if_neg h0]
    have hlt := bits_lt h cur hcur
    have hpre : Precedes s m cur z := by
      refine ⟨hcur, by omega, ?_⟩
      rw [hb]
      ext y
      exact ⟨fun hy => ⟨hy, hlt y hy⟩, fun hy => hy.1⟩
    obtain ⟨c, ⟨hc0, hc | hc⟩, hle⟩ := toward_stop h hz hpre
    · have := hlt _ (hb ▸ hc.1)
      omega
    obtain ⟨-, hl⟩ := hc
    have he := h.zero cur hcur (by omega)
    rw [hl] at he
    have hst := he.start
    have hsp := he.stop
    simp only [hl, if_neg hc0]
    rw [if_neg (by omega)]
    exact ih c _ last he.lt (by omega) (by omega) (hb.trans he.bits.symm)

theorem ones_loop_existing (fuel : ℕ) (h : Inv top s m) {z : ℕ} (hz : z < size s) :
    ∀ cur n last, cur < size s → n ≤ fuel → (node s z).seg.stop = (node s cur).seg.stop+n →
      m.bits z = m.bits cur ∪ Set.Ico (node s cur).seg.stop ((node s cur).seg.stop+n) →
      insertNOnesLoop fuel s cur n last = .ok (s, z) := by
  induction fuel with
  | zero =>
    intro cur n last hcur hn hs hb
    have h0 : n = 0 := by omega
    subst h0
    rw [node_unique h hz hcur hs (by simpa using hb)]
    rfl
  | succ fuel ih =>
    intro cur n last hcur hn hs hb
    unfold insertNOnesLoop
    by_cases h0 : n = 0
    · subst h0
      rw [if_pos rfl, node_unique h hz hcur hs (by simpa using hb)]
    rw [if_neg h0]
    have hlt := bits_lt h cur hcur
    have hpre : Precedes s m cur z := by
      refine ⟨hcur, by omega, ?_⟩
      rw [hb]
      ext y
      constructor
      · exact fun hy => ⟨Or.inl hy, hlt y hy⟩
      · rintro ⟨hy | hy, hys⟩
        · exact hy
        · have := hy.1
          simp only [Set.mem_Iio] at hys
          omega
    obtain ⟨c, ⟨hc0, hc | hc⟩, hle⟩ := toward_stop h hz hpre
    swap
    · exact absurd (hb ▸ Or.inr ⟨le_refl _, by omega⟩) hc.1
    obtain ⟨-, hr⟩ := hc
    have he := h.one cur hcur (by omega)
    rw [hr] at he
    have hsp := he.stop
    simp only [hr, if_neg hc0]
    rw [if_neg (by omega)]
    apply ih c _ c he.lt (by omega) (by omega)
    rw [hb, he.bits, Set.union_assoc, Set.Ico_union_Ico_eq_Ico (by omega) (by omega)]
    congr 2
    omega

theorem insert_zeros_existing (h : Inv top s m) {cur n z : ℕ} (last : ℕ) (hcur : cur < size s)
    (hz : z < size s) (hs : (node s z).seg.stop = (node s cur).seg.stop+n)
    (hb : m.bits z = m.bits cur) : insertNZeros s cur n last = .ok (s, z) :=
  zeros_loop_existing n h hz cur n last hcur (le_refl n) hs hb

theorem insert_ones_existing (h : Inv top s m) {cur n z : ℕ} (last : ℕ) (hcur : cur < size s)
    (hz : z < size s) (hs : (node s z).seg.stop = (node s cur).seg.stop+n)
    (hb : m.bits z = m.bits cur ∪ Set.Ico (node s cur).seg.stop ((node s cur).seg.stop+n)) :
    insertNOnes s cur n last = .ok (s, z) :=
  ones_loop_existing n h hz cur n last hcur (le_refl n) hs hb

end Parmesan.TagSetCanonical
