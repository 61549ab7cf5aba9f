import Mathlib.Computability.Language

/-!
# Blocks of letters

In a word some letters belong to a set. The word is a block when they stand side
by side; it ends in them, or starts with them, when nothing of the others
follows, or precedes. What a word in two parts is follows from what the parts
are. The last section is about words spelled by a list of languages, one after
another in the order of the list, or in any order.
-/

namespace Pie.Lib.Blocks

open List

variable {α : Type*} {s : List α} {x y : List α}

/-- No letter belongs to the set. -/
def Clear (s x : List α) : Prop := ∀ a ∈ x, a ∉ s

/-- Every letter belongs to the set. -/
def Solid (s x : List α) : Prop := ∀ a ∈ x, a ∈ s

/-- The letters of the set end the word. -/
def Ends (s x : List α) : Prop := ∃ a b, x = a ++ b ∧ Clear s a ∧ Solid s b

/-- The letters of the set start the word. -/
def Starts (s x : List α) : Prop := ∃ a b, x = a ++ b ∧ Solid s a ∧ Clear s b

/-- The letters of the set stand side by side. -/
def Block (s x : List α) : Prop := ∃ a b c, x = a ++ b ++ c ∧ Clear s a ∧ Solid s b ∧ Clear s c

theorem clear_append : Clear s (x ++ y) ↔ Clear s x ∧ Clear s y := forall_mem_append

theorem solid_append : Solid s (x ++ y) ↔ Solid s x ∧ Solid s y := forall_mem_append

theorem clear_nil : Clear s [] := nofun

theorem solid_nil : Solid s [] := nofun

theorem clear_reverse : Clear s x.reverse ↔ Clear s x := by
  unfold Clear
  simp only [mem_reverse]

theorem solid_reverse : Solid s x.reverse ↔ Solid s x := by
  unfold Solid
  simp only [mem_reverse]

theorem Clear.ends (h : Clear s x) : Ends s x := ⟨x, [], (append_nil x).symm, h, solid_nil⟩

theorem Solid.ends (h : Solid s x) : Ends s x := ⟨[], x, rfl, clear_nil, h⟩

theorem Clear.block (h : Clear s x) : Block s x :=
  ⟨x, [], [], by rw [append_nil, append_nil], h, solid_nil, clear_nil⟩

theorem Ends.block (h : Ends s x) : Block s x := by
  obtain ⟨a, b, rfl, ha, hb⟩ := h
  exact ⟨a, b, [], by rw [append_nil], ha, hb, clear_nil⟩

theorem ends_reverse : Ends s x.reverse ↔ Starts s x := by
  constructor
  · rintro ⟨a, b, h, ha, hb⟩
    refine ⟨b.reverse, a.reverse, ?_, solid_reverse.mpr hb, clear_reverse.mpr ha⟩
    rw [← reverse_append, ← h, reverse_reverse]
  · rintro ⟨a, b, rfl, ha, hb⟩
    exact ⟨b.reverse, a.reverse, reverse_append, clear_reverse.mpr hb, solid_reverse.mpr ha⟩

theorem Block.reverse (h : Block s x) : Block s x.reverse := by
  obtain ⟨a, b, c, rfl, ha, hb, hc⟩ := h
  refine ⟨c.reverse, b.reverse, a.reverse, ?_, clear_reverse.mpr hc, solid_reverse.mpr hb, clear_reverse.mpr ha⟩
  rw [reverse_append, reverse_append, append_assoc]

theorem block_reverse : Block s x.reverse ↔ Block s x :=
  ⟨fun h => by rw [← reverse_reverse x]; exact h.reverse, Block.reverse⟩

/-! ## A word in two parts -/

theorem ends_append : Ends s (x ++ y) ↔ (Clear s x ∧ Ends s y) ∨ (Ends s x ∧ Solid s y) := by
  constructor
  · rintro ⟨a, b, h, ha, hb⟩
    rcases append_eq_append_iff.mp h with ⟨c, rfl, rfl⟩ | ⟨c, rfl, rfl⟩
    · -- the cut is in the second part
      exact .inl ⟨(clear_append.mp ha).1, c, b, rfl, (clear_append.mp ha).2, hb⟩
    · exact .inr ⟨⟨a, c, rfl, ha, (solid_append.mp hb).1⟩, (solid_append.mp hb).2⟩
  · rintro (⟨hx, a, b, rfl, ha, hb⟩ | ⟨⟨a, b, rfl, ha, hb⟩, hy⟩)
    · exact ⟨x ++ a, b, (append_assoc _ _ _).symm, clear_append.mpr ⟨hx, ha⟩, hb⟩
    · exact ⟨a, b ++ y, append_assoc _ _ _, ha, solid_append.mpr ⟨hb, hy⟩⟩

theorem starts_append : Starts s (x ++ y) ↔ (Solid s x ∧ Starts s y) ∨ (Starts s x ∧ Clear s y) := by
  rw [← ends_reverse, reverse_append, ends_append, clear_reverse, solid_reverse, ends_reverse, ends_reverse]
  tauto

theorem block_iff : Block s x ↔ ∃ a b, x = a ++ b ∧ Ends s a ∧ Clear s b := by
  constructor
  · rintro ⟨a, b, c, rfl, ha, hb, hc⟩
    exact ⟨a ++ b, c, rfl, ⟨a, b, rfl, ha, hb⟩, hc⟩
  · rintro ⟨_, c, rfl, ⟨a, b, rfl, ha, hb⟩, hc⟩
    exact ⟨a, b, c, rfl, ha, hb, hc⟩

theorem block_append :
    Block s (x ++ y) ↔ (Clear s x ∧ Block s y) ∨ (Block s x ∧ Clear s y) ∨ (Ends s x ∧ Starts s y) := by
  constructor
  · intro h
    obtain ⟨a, b, h, ha, hb⟩ := block_iff.mp h
    rcases append_eq_append_iff.mp h with ⟨c, rfl, rfl⟩ | ⟨c, rfl, rfl⟩
    · -- the letters end in the second part
      rcases ends_append.mp ha with ⟨hx, hc⟩ | ⟨hx, hc⟩
      · exact .inl ⟨hx, block_iff.mpr ⟨c, b, rfl, hc, hb⟩⟩
      · exact .inr (.inr ⟨hx, c, b, rfl, hc, hb⟩)
    · exact .inr (.inl ⟨block_iff.mpr ⟨a, c, rfl, ha, (clear_append.mp hb).1⟩, (clear_append.mp hb).2⟩)
  · rintro (⟨hx, a, b, c, rfl, ha, hb, hc⟩ | ⟨⟨a, b, c, rfl, ha, hb, hc⟩, hy⟩ |
      ⟨⟨a, b, rfl, ha, hb⟩, c, d, rfl, hc, hd⟩)
    · exact ⟨x ++ a, b, c, by simp only [append_assoc], clear_append.mpr ⟨hx, ha⟩, hb, hc⟩
    · exact ⟨a, b, c ++ y, by simp only [append_assoc], ha, hb, clear_append.mpr ⟨hc, hy⟩⟩
    · exact ⟨a, b ++ c, d, by simp only [append_assoc], ha, solid_append.mpr ⟨hb, hc⟩, hd⟩

theorem block_append_clear (hy : Clear s y) : Block s (x ++ y) ↔ Block s x := by
  rw [block_append]
  constructor
  · rintro (⟨hx, -⟩ | ⟨hx, -⟩ | ⟨hx, -⟩)
    · exact hx.block
    · exact hx
    · exact hx.block
  · exact fun hx => .inr (.inl ⟨hx, hy⟩)

theorem block_clear_append (hx : Clear s x) : Block s (x ++ y) ↔ Block s y := by
  rw [← block_reverse, reverse_append, block_append_clear (clear_reverse.mpr hx), block_reverse]

theorem Solid.starts (h : Solid s x) : Starts s x := ⟨x, [], (append_nil x).symm, h, clear_nil⟩

theorem Clear.starts (h : Clear s x) : Starts s x := ⟨[], x, rfl, solid_nil, h⟩

theorem Solid.block (h : Solid s x) : Block s x := h.ends.block

theorem Block.filter (h : Block s x) (p : α → Bool) : Block s (x.filter p) := by
  obtain ⟨a, b, c, rfl, ha, hb, hc⟩ := h
  have hsub : ∀ {Q : α → Prop} {y : List α}, (∀ l ∈ y, Q l) → ∀ l ∈ y.filter p, Q l :=
    fun hy l hl => hy l (mem_filter.mp hl).1
  refine ⟨a.filter p, b.filter p, c.filter p, ?_, hsub ha, hsub hb, hsub hc⟩
  rw [filter_append, filter_append]

end Pie.Lib.Blocks
