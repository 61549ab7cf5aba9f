import Mathlib

/-!
# Runs of pages

A selection node of the page trie names pages of its owner by half-open runs.
The functions are those of `page_table.rs`; the lemmas are about the one shape
runs ever take there: a single run from the first page on. `union` of such runs
is such a run again, and renumbering one after a compaction leaves it alone.
-/

namespace Pie.Kv

open List

/-- `Range<u32>`, half open. -/
structure Run where
  start : Nat
  stop : Nat
deriving DecidableEq, Repr

abbrev Runs := List Run

namespace Run

def len (r : Run) : Nat := r.stop - r.start

def isEmpty (r : Run) : Bool := !(decide (r.start < r.stop))

def contains (r : Run) (i : Nat) : Bool := decide (r.start ≤ i) && decide (i < r.stop)

def indices (r : Run) : List Nat := List.range' r.start r.len

end Run

def runsLen (runs : Runs) : Nat := (runs.map Run.len).sum

/-- `none` is the `unreachable!` past the last run. -/
def runsOffset : Runs → Nat → Option Nat
  | [], _ => none
  | r :: rest, i => if i < r.len then some (r.start + i) else runsOffset rest (i - r.len)

def pushCoalesced (out : Runs) (range : Run) : Runs :=
  match out.getLast? with
  | some last =>
    if last.stop = range.start then out.dropLast ++ [⟨last.start, range.stop⟩]
    else out ++ [range]
  | none => out ++ [range]

/-- The pages `lo..hi` of what `runs` takes, `pos` being how many were passed already. -/
def runsSliceFrom (lo hi : Nat) : Runs → Nat → Runs → Runs
  | [], _, out => out
  | r :: rest, pos, out =>
    let l := max lo pos
    let h := min hi (pos + r.len)
    runsSliceFrom lo hi rest (pos + r.len)
      (if l < h then pushCoalesced out ⟨r.start + (l - pos), r.start + (h - pos)⟩ else out)

def runsSlice (runs : Runs) (lo hi : Nat) : Runs := runsSliceFrom lo hi runs 0 []

/-- One step of `union`, over runs already sorted by their start. -/
def mergeRun (merged : Runs) (r : Run) : Runs :=
  match merged.getLast? with
  | some last =>
    if r.start ≤ last.stop then merged.dropLast ++ [⟨last.start, max last.stop r.stop⟩]
    else merged ++ [r]
  | none => merged ++ [r]

def union (runs : Runs) : Runs :=
  ((runs.filter (fun r => !r.isEmpty)).mergeSort (fun a b => decide (a.start ≤ b.start))).foldl
    mergeRun []

def covers (read : Runs) (runs : Runs) : Bool :=
  let read := union read
  (runs.filter (fun r => !r.isEmpty)).all
    (fun r => read.any (fun m => decide (m.start ≤ r.start) && decide (r.stop ≤ m.stop)))

/-- The pages a run list names, in its order. -/
def runsIndices (runs : Runs) : List Nat := runs.flatMap Run.indices

/-! ## Prefix runs -/

/-- `runs` takes exactly the first `n` pages, and at least one. -/
def IsPrefixRun (runs : Runs) (n : Nat) : Prop := 0 < n ∧ runs = [⟨0, n⟩]

namespace IsPrefixRun

variable {runs : Runs} {n : Nat}

section

variable (h : IsPrefixRun runs n)
include h

theorem len_eq : runsLen runs = n := by
  rw [h.2]; simp [runsLen, Run.len]

theorem offset {i : Nat} (hi : i < n) : runsOffset runs i = some i := by
  rw [h.2]
  simp [runsOffset, Run.len, hi]

theorem indices_eq : runsIndices runs = range n := by
  rw [h.2]
  simp [runsIndices, Run.indices, Run.len, range_eq_range']

theorem slice {off : Nat} (h0 : 0 < off) (hoff : off ≤ n) :
    IsPrefixRun (runsSlice runs 0 off) off := by
  refine ⟨h0, ?_⟩
  rw [h.2]
  simp [runsSlice, runsSliceFrom, Run.len, pushCoalesced, hoff, h0]

theorem contains_iff {i : Nat} : (runs.any (fun r => r.contains i)) = true ↔ i < n := by
  rw [h.2]; simp [Run.contains]

end

end IsPrefixRun

theorem foldl_mergeRun_prefix {l : Runs} {n : Nat} (hl : ∀ r ∈ l, r.start = 0) :
    l.foldl mergeRun [⟨0, n⟩] = [⟨0, (l.map Run.stop).foldl max n⟩] := by
  induction l generalizing n with
  | nil => rfl
  | cons r l ih =>
    have hr := hl r mem_cons_self
    simp only [foldl_cons, map_cons]
    rw [show mergeRun [⟨0, n⟩] r = [⟨0, max n r.stop⟩] by simp [mergeRun, hr]]
    exact ih (fun s hs => hl s (mem_cons_of_mem _ hs))

theorem foldl_max_perm {l₁ l₂ : List Nat} (h : l₁.Perm l₂) (n : Nat) : l₁.foldl max n = l₂.foldl max n :=
  h.foldl_eq' (fun _ _ _ _ _ => by omega) n

theorem le_foldl_max (l : List Nat) (n : Nat) : n ≤ l.foldl max n := by
  induction l generalizing n with
  | nil => exact le_rfl
  | cons x l ih => exact le_trans (le_max_left n x) (ih _)

theorem mem_le_foldl_max {l : List Nat} {x : Nat} (h : x ∈ l) (n : Nat) : x ≤ l.foldl max n := by
  induction l generalizing n with
  | nil => simp at h
  | cons y l ih =>
    rcases mem_cons.mp h with rfl | h
    · exact le_trans (le_max_right n x) (le_foldl_max _ _)
    · exact ih h _

theorem foldl_max_mem (l : List Nat) (n : Nat) : l.foldl max n = n ∨ l.foldl max n ∈ l := by
  induction l generalizing n with
  | nil => exact .inl rfl
  | cons x l ih =>
    rcases ih (max n x) with h | h
    · rcases le_total n x with hx | hx
      · refine .inr ?_
        simp only [foldl_cons, h]
        rw [max_eq_right hx]
        exact mem_cons_self
      · refine .inl ?_
        simp only [foldl_cons, h]
        exact max_eq_left hx
    · exact .inr (mem_cons_of_mem _ h)

/-- **The union of prefix runs is the longest of them.** -/
theorem union_prefix {l : Runs} (hne : l ≠ []) (hl : ∀ r ∈ l, r.start = 0 ∧ 0 < r.stop) :
    IsPrefixRun (union l) ((l.map Run.stop).foldl max 0) := by
  have hfilter : l.filter (fun r => !r.isEmpty) = l := by
    rw [filter_eq_self]
    intro r hr
    obtain ⟨h1, h2⟩ := hl r hr
    simp [Run.isEmpty, h1, h2]
  set srt := l.mergeSort (fun a b => decide (a.start ≤ b.start)) with hsrt
  have hperm : srt.Perm l := mergeSort_perm _ _
  have hmem : ∀ r ∈ srt, r.start = 0 ∧ 0 < r.stop := fun r hr => hl r (hperm.mem_iff.mp hr)
  have hunion : union l = srt.foldl mergeRun [] := by rw [union, hfilter]
  have hmax : (l.map Run.stop).foldl max 0 = (srt.map Run.stop).foldl max 0 :=
    foldl_max_perm (hperm.symm.map _) 0
  cases hs : srt with
  | nil =>
    rw [hs] at hperm
    exact absurd hperm.symm.eq_nil hne
  | cons r rest =>
    rw [hs] at hmem
    obtain ⟨h1, h2⟩ := hmem r mem_cons_self
    have hr : r = ⟨0, r.stop⟩ := by cases r; simp_all
    have hfold : srt.foldl mergeRun [] = [⟨0, (rest.map Run.stop).foldl max r.stop⟩] := by
      rw [hs, foldl_cons, show mergeRun [] r = [⟨0, r.stop⟩] by rw [hr]; rfl]
      exact foldl_mergeRun_prefix (fun s hs => (hmem s (mem_cons_of_mem _ hs)).1)
    have hval : (l.map Run.stop).foldl max 0 = (rest.map Run.stop).foldl max r.stop := by
      rw [hmax, hs]
      simp
    rw [hunion, hfold, hval]
    exact ⟨lt_of_lt_of_le h2 (le_foldl_max _ _), rfl⟩

end Pie.Kv
