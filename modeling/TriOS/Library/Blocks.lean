import Mathlib

/-!
# Blocks — address intervals and ordered lists of them

A block is a run of consecutive cells `[start, start + len)`. Free lists of allocators are lists of
blocks in ascending order; this file has the vocabulary for them: order, coverage, total size, and
the rules for the three edits an allocator makes (insert a block, shrink one from the left, fuse
two neighbours).
-/

namespace Blocks

/-- The cells from `start` on, `len` of them. -/
structure Block where
  start : Nat
  len : Nat
  deriving DecidableEq, Repr

/-- The first cell after the block. -/
def Block.stop (b : Block) : Nat :=
  b.start + b.len

/-- `p` is a cell of `b`. -/
def Block.Mem (b : Block) (p : Nat) : Prop :=
  b.start ≤ p ∧ p < b.stop

/-- The two blocks have no cell in common. -/
def Block.Disjoint (a b : Block) : Prop :=
  ∀ p, a.Mem p → ¬ b.Mem p

/-- Ascending order without overlap. -/
def Ordered (bs : List Block) : Prop :=
  bs.Pairwise fun a b => a.stop ≤ b.start

/-- Ascending order with a gap between any two blocks. -/
def Spaced (bs : List Block) : Prop :=
  bs.Pairwise fun a b => a.stop < b.start

/-- `p` is a cell of one of the blocks. -/
def Covers (bs : List Block) (p : Nat) : Prop :=
  ∃ b ∈ bs, b.Mem p

/-- The number of cells of all blocks. -/
def total (bs : List Block) : Nat :=
  (bs.map Block.len).sum

variable {a b x y : Block} {bs pre post : List Block} {p : Nat}

theorem Spaced.ordered (h : Spaced bs) : Ordered bs :=
  h.imp fun hlt => hlt.le

@[simp] theorem covers_nil : ¬ Covers [] p := by
  simp [Covers]

@[simp] theorem covers_cons : Covers (b :: bs) p ↔ b.Mem p ∨ Covers bs p := by
  simp [Covers]

@[simp] theorem covers_append : Covers (pre ++ post) p ↔ Covers pre p ∨ Covers post p := by
  simp [Covers, or_and_right, exists_or]

@[simp] theorem total_nil : total [] = 0 := rfl

@[simp] theorem total_cons : total (b :: bs) = b.len + total bs := by
  simp [total]

@[simp] theorem total_append : total (pre ++ post) = total pre + total post := by
  simp [total]

theorem len_le_total (h : b ∈ bs) : b.len ≤ total bs :=
  List.le_sum_of_mem (List.mem_map_of_mem h)

theorem ordered_middle :
    Ordered (pre ++ x :: post) ↔
      Ordered (pre ++ post) ∧ (∀ a ∈ pre, a.stop ≤ x.start) ∧ ∀ b ∈ post, x.stop ≤ b.start := by
  simp only [Ordered, List.pairwise_append, List.pairwise_cons, List.mem_cons, forall_eq_or_imp]
  constructor
  · rintro ⟨h1, ⟨h2, h3⟩, h4⟩
    exact ⟨⟨h1, h3, fun a ha => (h4 a ha).2⟩, fun a ha => (h4 a ha).1, h2⟩
  · rintro ⟨⟨h1, h2, h3⟩, h4, h5⟩
    exact ⟨h1, ⟨h5, h2⟩, fun a ha => ⟨h4 a ha, h3 a ha⟩⟩

theorem spaced_middle :
    Spaced (pre ++ x :: post) ↔
      Spaced (pre ++ post) ∧ (∀ a ∈ pre, a.stop < x.start) ∧ ∀ b ∈ post, x.stop < b.start := by
  simp only [Spaced, List.pairwise_append, List.pairwise_cons, List.mem_cons, forall_eq_or_imp]
  constructor
  · rintro ⟨h1, ⟨h2, h3⟩, h4⟩
    exact ⟨⟨h1, h3, fun a ha => (h4 a ha).2⟩, fun a ha => (h4 a ha).1, h2⟩
  · rintro ⟨⟨h1, h2, h3⟩, h4, h5⟩
    exact ⟨h1, ⟨h5, h2⟩, fun a ha => ⟨h4 a ha, h3 a ha⟩⟩

/-- In an ordered list only `x` has the cells of `x`. -/
theorem Ordered.not_covers (h : Ordered (pre ++ x :: post)) (hp : x.Mem p) :
    ¬ Covers (pre ++ post) p := by
  rcases ordered_middle.1 h with ⟨_, hpre, hpost⟩
  rintro ⟨b, hb, hbp⟩
  unfold Block.Mem at hp hbp
  rcases List.mem_append.1 hb with hb | hb
  · have := hpre b hb
    omega
  · have := hpost b hb
    omega

/-- Two blocks without a common cell are on one side of each other. -/
theorem Block.Disjoint.le_or_le (h : a.Disjoint b) (ha : 0 < a.len) (hb : 0 < b.len) :
    a.stop ≤ b.start ∨ b.stop ≤ a.start := by
  by_contra hc
  simp only [not_or, not_le] at hc
  unfold Block.stop at hc
  by_cases hs : a.start ≤ b.start
  · exact h b.start ⟨hs, hc.1⟩ ⟨le_rfl, by unfold Block.stop; omega⟩
  · exact h a.start ⟨le_rfl, by unfold Block.stop; omega⟩ ⟨by omega, hc.2⟩

theorem Block.Disjoint.symm (h : a.Disjoint b) : b.Disjoint a :=
  fun p hb ha => h p ha hb

/-- A block without common cells with an ordered list has a place in it. -/
theorem Ordered.exists_split (hpos : ∀ b ∈ bs, 0 < b.len) (hx : 0 < x.len) (h : Ordered bs)
    (hdis : ∀ b ∈ bs, x.Disjoint b) :
    ∃ pre post, bs = pre ++ post ∧ (∀ a ∈ pre, a.stop ≤ x.start) ∧
      ∀ b ∈ post, x.stop ≤ b.start := by
  induction bs with
  | nil => exact ⟨[], [], rfl, by simp, by simp⟩
  | cons c cs ih =>
      rcases List.pairwise_cons.1 h with ⟨hc, hcs⟩
      have hside := (hdis c (by simp)).le_or_le hx (hpos c (by simp))
      rcases hside with hle | hle
      · -- `x` lies before the first block, hence before all of them.
        refine ⟨[], c :: cs, rfl, by simp, ?_⟩
        intro b hb
        rcases List.mem_cons.1 hb with rfl | hb
        · exact hle
        · have h1 := hc b hb
          have h2 : c.start ≤ c.stop := Nat.le_add_right _ _
          omega
      · rcases ih (fun b hb => hpos b (by simp [hb])) hcs (fun b hb => hdis b (by simp [hb]))
          with ⟨pre, post, rfl, hpre, hpost⟩
        refine ⟨c :: pre, post, rfl, ?_, hpost⟩
        intro a ha
        rcases List.mem_cons.1 ha with rfl | ha
        · exact hle
        · exact hpre a ha

/-- Blocks with gaps between them are determined by their cells. -/
theorem Spaced.unique : ∀ {as bs : List Block}, Spaced as → Spaced bs → (∀ a ∈ as, 0 < a.len) →
    (∀ b ∈ bs, 0 < b.len) → (∀ p, Covers as p ↔ Covers bs p) → as = bs
  | [], [], _, _, _, _, _ => rfl
  | [], b :: bs, _, _, _, hb, h => by
      have hpos := hb b (by simp)
      exact absurd ((h b.start).2 ⟨b, by simp, le_rfl, by unfold Block.stop; omega⟩) covers_nil
  | a :: as, [], _, _, ha, _, h => by
      have hpos := ha a (by simp)
      exact absurd ((h a.start).1 ⟨a, by simp, le_rfl, by unfold Block.stop; omega⟩) covers_nil
  | a :: as, b :: bs, hsa, hsb, ha, hb, h => by
      rcases List.pairwise_cons.1 hsa with ⟨hfirst, hsa'⟩
      rcases List.pairwise_cons.1 hsb with ⟨hfirst', hsb'⟩
      have hapos := ha a (by simp)
      have hbpos := hb b (by simp)
      -- No cell is below the first block, and the cell after it is free.
      have low : ∀ {c : Block} {cs : List Block} {p : Nat}, (∀ d ∈ cs, c.stop < d.start) →
          Covers (c :: cs) p → c.start ≤ p ∧ p ≠ c.stop := by
        rintro c cs p hc ⟨d, hd, hd1, hd2⟩
        rcases List.mem_cons.1 hd with rfl | hd
        · exact ⟨hd1, hd2.ne⟩
        · have := hc d hd
          unfold Block.stop at this ⊢
          omega
      have hcell : ∀ {c : Block}, ∀ p, c.start ≤ p → p < c.stop → c.Mem p := fun p h1 h2 => ⟨h1, h2⟩
      have h1 := (low hfirst' ((h a.start).1 ⟨a, by simp, le_rfl, by unfold Block.stop; omega⟩)).1
      have h2 := (low hfirst ((h b.start).2 ⟨b, by simp, le_rfl, by unfold Block.stop; omega⟩)).1
      have hstart : a.start = b.start := by omega
      have hstop : a.stop = b.stop := by
        rcases Nat.lt_trichotomy a.stop b.stop with hlt | heq | hgt
        · have hmem := hcell (c := b) a.stop (by unfold Block.stop; omega) hlt
          exact absurd rfl (low hfirst ((h a.stop).2 ⟨b, by simp, hmem⟩)).2
        · exact heq
        · have hmem := hcell (c := a) b.stop (by unfold Block.stop; omega) hgt
          exact absurd rfl (low hfirst' ((h b.stop).1 ⟨a, by simp, hmem⟩)).2
      have hab : a = b := by
        cases a
        cases b
        simp only [Block.stop, Block.mk.injEq] at hstart hstop ⊢
        omega
      subst hab
      have hrest : ∀ p, Covers as p ↔ Covers bs p := by
        intro p
        have hnot : ∀ {cs : List Block}, Spaced (a :: cs) → a.Mem p → ¬ Covers cs p := by
          intro cs hs hp
          have hord : Ordered ([] ++ a :: cs) := Spaced.ordered hs
          exact hord.not_covers hp
        by_cases hp : a.Mem p
        · exact iff_of_false (hnot hsa hp) (hnot hsb hp)
        · have hall := h p
          simpa [hp] using hall
      rw [Spaced.unique hsa' hsb' (fun c hc => ha c (by simp [hc])) (fun c hc => hb c (by simp [hc]))
        hrest]

/-- Two blocks that touch are one block. -/
theorem mem_fuse (h : a.stop = b.start) :
    (Block.mk a.start (a.len + b.len)).Mem p ↔ a.Mem p ∨ b.Mem p := by
  simp only [Block.Mem, Block.stop] at h ⊢
  omega

end Blocks
