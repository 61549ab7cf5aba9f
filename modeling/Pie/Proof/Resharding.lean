import Pie.Lib.Loops
import Pie.Lib.Patches
import Pie.State.Format

/-!
# Pages laid out again are the same pages

A layout is filled from bytes that say which page, plane, token, model head and
lane they are of. Laid out again for another group of ranks, it is that group's
layout filled from the same bytes: every head a rank is to hold stands where the
other layout has it, and the runs cover all that a rank holds. Heads are counted
in 32 bits, and there the count overflows for a group much wider than the heads.
-/

namespace Pie.Proof.Resharding

open List Option Pie.State Lib Words Records Patches

/-! ## A layout filled from its elements -/

/-- The bytes of a lane, by page, plane, token, model head and lane. -/
abbrev Elements := Nat → Nat → Nat → Nat → Nat → Nat → UInt8

variable (plane : Plane)

/-- The model head a rank's local head is. -/
def share (ranks rank localHead : Nat) : Nat :=
  if ranks ≤ plane.heads.toNat then rank * plane.headsPerRank ranks + localHead else rank * plane.heads.toNat / ranks

/-- One head of one token. -/
def headBytes (lanes : Nat → Nat → UInt8) : List UInt8 :=
  (List.range plane.headDim.toNat).flatMap fun lane => (List.range plane.elemBytes.toNat).map (lanes lane)

def fillToken (ranks rank : Nat) (heads : Nat → Nat → Nat → UInt8) : List UInt8 :=
  (List.range (plane.headsPerRank ranks)).flatMap fun localHead => headBytes plane (heads (share plane ranks rank localHead))

def fillPlane (pageTokens ranks rank : Nat) (tokens : Nat → Nat → Nat → Nat → UInt8) : List UInt8 :=
  (List.range pageTokens).flatMap fun token => fillToken plane ranks rank (tokens token)

def fillPage (layout : PageLayout) (rank : Nat) (planes : Nat → Nat → Nat → Nat → Nat → UInt8) : List UInt8 :=
  layout.planes.zipIdx.flatMap fun e => fillPlane e.1 layout.pageTokens.toNat layout.ranks.toNat rank (planes e.2)

/-- The layout, filled. -/
def fill (layout : PageLayout) (pages : Nat) (elements : Elements) : List UInt8 :=
  (List.range layout.ranks.toNat).flatMap fun rank =>
    (List.range pages).flatMap fun page => fillPage layout rank (elements page)

/-- Heads split evenly across the ranks, or a rank holds a copy of one. -/
def Splits (planes : List Plane) (ranks : Nat) : Prop :=
  1 ≤ ranks ∧ ∀ plane ∈ planes, ranks ∣ plane.heads.toNat ∨ plane.heads.toNat < ranks

/-! ## Sizes -/

section Sizes

variable {plane : Plane} {layout : PageLayout} {pages ranks rank n : Nat}

def planeSize (plane : Plane) (pageTokens ranks : Nat) : Nat := pageTokens * (plane.headsPerRank ranks * plane.head)

def pageSize (layout : PageLayout) : Nat :=
  (layout.planes.map fun plane => planeSize plane layout.pageTokens.toNat layout.ranks.toNat).sum

theorem headBytes_length {lanes : Nat → Nat → UInt8} : (headBytes plane lanes).length = plane.head :=
  length_flatMap_range fun _ _ => by rw [length_map, length_range]

theorem fillToken_length {heads : Nat → Nat → Nat → UInt8} :
    (fillToken plane ranks rank heads).length = plane.headsPerRank ranks * plane.head :=
  length_flatMap_range fun _ _ => headBytes_length

theorem fillPlane_length {tokens : Nat → Nat → Nat → Nat → UInt8} :
    (fillPlane plane n ranks rank tokens).length = planeSize plane n ranks :=
  length_flatMap_range fun _ _ => fillToken_length

theorem fillPlanes_length {f : Nat → Nat → Nat → Nat → Nat → UInt8} : ∀ {planes : List Plane} {k : Nat},
    ((planes.zipIdx k).flatMap fun e => fillPlane e.1 n ranks rank (f e.2)).length
      = (planes.map fun plane => planeSize plane n ranks).sum := by
  intro planes
  induction planes with
  | nil => intro k; rfl
  | cons plane planes ih =>
    intro k
    rw [zipIdx_cons, flatMap_cons, length_append, fillPlane_length, ih, map_cons, sum_cons]

theorem fillPage_length {planes : Nat → Nat → Nat → Nat → Nat → UInt8} :
    (fillPage layout rank planes).length = pageSize layout := fillPlanes_length

theorem fill_length {elements : Elements} :
    (fill layout pages elements).length = layout.ranks.toNat * (pages * pageSize layout) :=
  length_flatMap_range fun _ _ => length_flatMap_range fun _ _ => fillPage_length

theorem plane_bytes_eq {size : Nat} (h : plane.bytes ranks n = some size) : size = planeSize plane n ranks := by
  obtain ⟨rows, hrows, h⟩ := bind_eq_some_iff.mp h
  obtain ⟨lanes, hlanes, h⟩ := bind_eq_some_iff.mp h
  rw [← (checkedMul_eq_some.mp h).2, ← (checkedMul_eq_some.mp hlanes).2, ← (checkedMul_eq_some.mp hrows).2, planeSize,
    Plane.head]
  ring

/-- The sum of the sizes fits, and each of them does. -/
theorem foldlM_bytes {f : Plane → Option Nat} {g : Plane → Nat} (hf : ∀ plane size, f plane = some size → size = g plane) :
    ∀ {planes : List Plane} {start total : Nat},
      planes.foldlM (fun sum plane => do checkedAdd sum (← f plane)) start = some total →
        total = start + (planes.map g).sum ∧ (∀ plane ∈ planes, f plane = some (g plane)) ∧ (planes ≠ [] → total < WORD) := by
  intro planes
  induction planes with
  | nil =>
    intro start total h
    cases h
    exact ⟨rfl, fun _ h => (nomatch h), fun h => absurd rfl h⟩
  | cons plane planes ih =>
    intro start total h
    rw [foldlM_cons] at h
    obtain ⟨next, hnext, h⟩ := bind_eq_some_iff.mp h
    obtain ⟨size, hsize, hnext⟩ := bind_eq_some_iff.mp hnext
    obtain ⟨hlt, rfl⟩ := checkedAdd_eq_some.mp hnext
    obtain ⟨htotal, hall, hword⟩ := ih h
    have hg := hf plane size hsize
    subst hg
    refine ⟨by rw [htotal, map_cons, sum_cons]; omega, ?_, fun _ => ?_⟩
    · intro p hp
      rcases mem_cons.mp hp with rfl | hp
      · exact hsize
      · exact hall p hp
    · cases planes with
      | nil =>
        rw [map_nil, sum_nil, add_zero] at htotal
        rw [htotal]
        exact hlt
      | cons _ _ => exact hword (cons_ne_nil _ _)

/-- What it says of a layout that its size is counted. -/
structure Counted (layout : PageLayout) (pages : Nat) : Prop where
  page : layout.rankPageBytes = some (pageSize layout)
  planes : ∀ plane ∈ layout.planes, plane.bytes layout.ranks.toNat layout.pageTokens.toNat
    = some (planeSize plane layout.pageTokens.toNat layout.ranks.toNat)
  word : pageSize layout < WORD
  bytes : layout.bytes pages = some (layout.ranks.toNat * (pages * pageSize layout))
  fits : layout.ranks.toNat * (pages * pageSize layout) < WORD

theorem counted {size : Nat} (h : layout.bytes pages = some size) : Counted layout pages := by
  obtain ⟨page, hpage, hrest⟩ := bind_eq_some_iff.mp h
  obtain ⟨all, hall, hmul⟩ := bind_eq_some_iff.mp hrest
  obtain ⟨-, rfl⟩ := checkedMul_eq_some.mp hall
  obtain ⟨hlt, hsize⟩ := checkedMul_eq_some.mp hmul
  obtain ⟨htotal, hplanes, hword⟩ := foldlM_bytes (fun _ _ => plane_bytes_eq) hpage
  rw [zero_add] at htotal
  have hcomm : page * layout.ranks.toNat * pages = layout.ranks.toNat * (pages * pageSize layout) := by
    rw [pageSize, ← htotal]
    ring
  refine ⟨by rw [hpage, htotal]; rfl, hplanes, ?_, by rw [h, ← hsize, hcomm], by rw [← hcomm]; exact hlt⟩
  by_cases hnil : layout.planes = []
  · rw [pageSize, hnil]
    exact Nat.two_pow_pos 64
  · rw [pageSize, ← htotal]
    exact hword hnil

end Sizes

/-- Heads side by side stand together in the layout. -/
theorem stands_heads (elements : Elements) {layout : PageLayout} {pages rank page token localHead n : Nat}
    {pre post : List Plane} {plane : Plane} (hplanes : layout.planes = pre ++ plane :: post)
    (hrank : rank < layout.ranks.toNat) (hpage : page < pages) (htoken : token < layout.pageTokens.toNat)
    (hlocal : localHead + n ≤ plane.headsPerRank layout.ranks.toNat) :
    Stands (fill layout pages elements)
      (rank * (pages * pageSize layout) + (page * pageSize layout
        + ((pre.map fun p => planeSize p layout.pageTokens.toNat layout.ranks.toNat).sum
          + (token * (plane.headsPerRank layout.ranks.toNat * plane.head) + localHead * plane.head))))
      ((range n).flatMap fun j =>
        headBytes plane (elements page pre.length token (share plane layout.ranks.toNat rank (localHead + j)))) := by
  refine (Stands.range_one (fun _ _ => length_flatMap_range fun _ _ => fillPage_length) hrank).trans ?_
  refine (Stands.range_one (fun _ _ => fillPage_length) hpage).trans ?_
  have hzip : layout.planes.zipIdx = pre.zipIdx ++ (plane, pre.length) :: post.zipIdx (pre.length + 1) := by
    rw [hplanes, zipIdx_append, zipIdx_cons, zero_add]
  have hplane := Stands.flatMap (fun e => fillPlane e.1 layout.pageTokens.toNat layout.ranks.toNat rank (elements page e.2))
    pre.zipIdx (post.zipIdx (pre.length + 1)) (plane, pre.length)
  rw [fillPlanes_length, ← hzip] at hplane
  refine hplane.trans ?_
  refine (Stands.range_one (fun _ _ => fillToken_length) htoken).trans ?_
  exact Stands.range (fun _ _ => headBytes_length) hlocal

/-! ## Which head is whose -/

section Heads

variable {plane : Plane} {ranks src dst rank localHead modelHead : Nat}

/-- The products of 32 bits that look for a plane's heads do not overflow, and there is a head. -/
structure Findable (plane : Plane) (src dst : Nat) : Prop where
  heads : plane.heads.toNat ≠ 0
  held : plane.heads.toNat < dst → (dst - 1) * plane.heads.toNat < 2 ^ 32
  source : plane.heads.toNat < src → (plane.heads.toNat - 1) * src < 2 ^ 32

theorem mul32_eq {a b : Nat} (h : a * b < 2 ^ 32) : mul32 a b = some (a * b) := if_pos h

theorem add32_eq {a b : Nat} (h : a + b < 2 ^ 32) : add32 a b = some (a + b) := if_pos h

theorem headsPerRank_pos : 0 < plane.headsPerRank ranks := lt_of_lt_of_le Nat.one_pos (le_max_right _ _)

theorem headsPerRank_even (hranks : 1 ≤ ranks) (hdvd : ranks ∣ plane.heads.toNat) (hle : ranks ≤ plane.heads.toNat) :
    ranks * plane.headsPerRank ranks = plane.heads.toNat := by
  have hpos : 0 < plane.heads.toNat / ranks := Nat.div_pos hle hranks
  rw [Plane.headsPerRank, max_eq_left hranks, max_eq_left hpos, Nat.mul_div_cancel' hdvd]

theorem even_lt {per : Nat} (hrank : rank < ranks) (hlocal : localHead < per) : rank * per + localHead < ranks * per := by
  calc rank * per + localHead < rank * per + per := by omega
    _ = (rank + 1) * per := by ring
    _ ≤ ranks * per := Nat.mul_le_mul_right per hrank

theorem share_lt (hsplit : ranks ∣ plane.heads.toNat ∨ plane.heads.toNat < ranks) (hranks : 1 ≤ ranks)
    (hheads : plane.heads.toNat ≠ 0) (hrank : rank < ranks) (hlocal : localHead < plane.headsPerRank ranks) :
    share plane ranks rank localHead < plane.heads.toNat := by
  unfold share
  split
  · rename_i hle
    have heven := headsPerRank_even hranks (hsplit.resolve_right (not_lt.mpr hle)) hle
    have := even_lt hrank hlocal
    omega
  · rw [Nat.div_lt_iff_lt_mul hranks, mul_comm]
    exact Nat.mul_lt_mul_of_pos_left hrank (Nat.pos_of_ne_zero hheads)

theorem headOf_eq (hsplit : ranks ∣ plane.heads.toNat ∨ plane.heads.toNat < ranks) (hranks : 1 ≤ ranks)
    (hheads : plane.heads.toNat ≠ 0) (hheld : plane.heads.toNat < ranks → (ranks - 1) * plane.heads.toNat < 2 ^ 32)
    (hrank : rank < ranks) (hlocal : localHead < plane.headsPerRank ranks) :
    plane.headOf ranks rank localHead = some (share plane ranks rank localHead) := by
  have hword := plane.heads.toNat_lt
  have hlt := share_lt hsplit hranks hheads hrank hlocal
  unfold Plane.headOf
  unfold share at hlt ⊢
  split
  · rename_i hle
    rw [if_pos hle] at hlt
    rw [mul32_eq (by omega)]
    exact add32_eq (by omega)
  · rename_i hle
    have hmul : rank * plane.heads.toNat ≤ (ranks - 1) * plane.heads.toNat := Nat.mul_le_mul_right _ (by omega)
    rw [mul32_eq (lt_of_le_of_lt hmul (hheld (by omega)))]
    rfl

/-- The least rank that holds a copy of a head, where the ranks outnumber the heads. -/
theorem copy_source (heads : 0 < plane.heads.toNat) (hlt : plane.heads.toNat < ranks) (hhead : modelHead < plane.heads.toNat) :
    ∃ r, divCeil (modelHead * ranks) plane.heads.toNat = some r ∧ r < ranks ∧ r * plane.heads.toNat / ranks = modelHead := by
  refine ⟨_, if_neg (by omega), ?_⟩
  generalize plane.heads.toNat = n at *
  have hdiv := Nat.div_add_mod (modelHead * ranks) n
  have hmod := Nat.mod_lt (modelHead * ranks) heads
  -- the rank is the first whose product is not below `modelHead * ranks`
  have hround : ∃ extra, extra < n ∧
      (modelHead * ranks / n + if 0 < modelHead * ranks % n then 1 else 0) * n = modelHead * ranks + extra := by
    by_cases hz : 0 < modelHead * ranks % n
    · refine ⟨n - modelHead * ranks % n, by omega, ?_⟩
      rw [if_pos hz, add_mul, one_mul, mul_comm]
      omega
    · refine ⟨0, heads, ?_⟩
      rw [if_neg hz, add_zero, mul_comm]
      omega
  obtain ⟨extra, hextra, heq⟩ := hround
  have hnext : modelHead * ranks + extra < (modelHead + 1) * ranks := by
    rw [add_mul, one_mul]
    omega
  refine ⟨?_, ?_⟩
  · refine Nat.lt_of_mul_lt_mul_right (a := n) ?_
    calc _ = modelHead * ranks + extra := heq
      _ < (modelHead + 1) * ranks := hnext
      _ ≤ n * ranks := Nat.mul_le_mul_right _ hhead
      _ = ranks * n := mul_comm _ _
  · rw [heq]
    exact Nat.div_eq_of_lt_le (Nat.le_add_right _ _) hnext

theorem sourceOf_eq (hsplit : ranks ∣ plane.heads.toNat ∨ plane.heads.toNat < ranks) (hranks : 1 ≤ ranks)
    (hheads : plane.heads.toNat ≠ 0) (hsource : plane.heads.toNat < ranks → (plane.heads.toNat - 1) * ranks < 2 ^ 32)
    (hhead : modelHead < plane.heads.toNat) :
    ∃ r l, sourceOf plane ranks modelHead = some (r, l) ∧ r < ranks ∧ l < plane.headsPerRank ranks
      ∧ share plane ranks r l = modelHead := by
  by_cases hle : ranks ≤ plane.heads.toNat
  · have heven := headsPerRank_even hranks (hsplit.resolve_right (not_lt.mpr hle)) hle
    refine ⟨modelHead / plane.headsPerRank ranks, modelHead % plane.headsPerRank ranks, if_pos hle, ?_,
      Nat.mod_lt _ headsPerRank_pos, ?_⟩
    · rw [Nat.div_lt_iff_lt_mul headsPerRank_pos, heven]
      exact hhead
    · rw [share, if_pos hle, mul_comm]
      exact Nat.div_add_mod _ _
  · obtain ⟨r, hr, hlt, hshare⟩ := copy_source (Nat.pos_of_ne_zero hheads) (Nat.lt_of_not_le hle) hhead
    have hmul : modelHead * ranks ≤ (plane.heads.toNat - 1) * ranks := Nat.mul_le_mul_right _ (by omega)
    refine ⟨r, 0, ?_, hlt, headsPerRank_pos, ?_⟩
    · rw [sourceOf, if_neg hle, mul32_eq (lt_of_le_of_lt hmul (hsource (by omega)))]
      show (divCeil (modelHead * ranks) plane.heads.toNat >>= fun r => pure (r, 0)) = _
      rw [hr]
      rfl
    · rw [share, if_neg hle]
      exact hshare

/-- The last head of the last rank is the model's last head. -/
theorem share_last (hsplit : ranks ∣ plane.heads.toNat ∨ plane.heads.toNat < ranks) (hranks : 1 ≤ ranks)
    (hheads : plane.heads.toNat ≠ 0) :
    share plane ranks (ranks - 1) (plane.headsPerRank ranks - 1) = plane.heads.toNat - 1 := by
  have hpos : 0 < plane.headsPerRank ranks := headsPerRank_pos
  obtain ⟨r, rfl⟩ : ∃ r, ranks = r + 1 := ⟨ranks - 1, by omega⟩
  unfold share
  rw [Nat.add_sub_cancel]
  split
  · rename_i hle
    have heven := headsPerRank_even hranks (hsplit.resolve_right (not_lt.mpr hle)) hle
    rw [add_mul, one_mul] at heven
    omega
  · rename_i hle
    obtain ⟨n, hn⟩ : ∃ n, plane.heads.toNat = n + 1 := ⟨plane.heads.toNat - 1, by omega⟩
    rw [hn, Nat.add_sub_cancel]
    have hexpand : r * (n + 1) = n * (r + 1) + (r - n) := by
      obtain ⟨d, rfl⟩ : ∃ d, r = n + d := ⟨r - n, by omega⟩
      rw [Nat.add_sub_cancel_left]
      ring
    rw [hexpand]
    exact Nat.div_eq_of_lt_le (Nat.le_add_right _ _) (by rw [add_mul n 1, one_mul]; omega)

end Heads

/-! ## The runs of a rank -/

section Runs

variable {plane : Plane} {src dst rank k r l : Nat} {runs : List Run} {run : Run}

/-- The heads of a run stand side by side in both layouts. -/
structure Beside (plane : Plane) (src dst rank : Nat) (run : Run) : Prop where
  group : run.src < src
  there : run.srcLocal + run.heads ≤ plane.headsPerRank src
  here : run.here + run.heads ≤ plane.headsPerRank dst
  heads : ∀ j < run.heads, share plane src run.src (run.srcLocal + j) = share plane dst rank (run.here + j)

/-- The runs hold the first `k` heads of a rank. -/
structure Gathers (plane : Plane) (src dst rank k : Nat) (runs : List Run) : Prop where
  beside : ∀ run ∈ runs, Beside plane src dst rank run
  cover : ∀ localHead < k, ∃ run ∈ runs, run.here ≤ localHead ∧ localHead < run.here + run.heads
  last : ∀ run ∈ runs.getLast?, run.here + run.heads = k

theorem gathers_init : Gathers plane src dst rank 0 [] :=
  ⟨fun _ h => (nomatch h), fun _ h => absurd h (Nat.not_lt_zero _), fun _ h => (nomatch h)⟩

theorem Gathers.append (h : Gathers plane src dst rank k runs) (hk : k < plane.headsPerRank dst) (hr : r < src)
    (hl : l < plane.headsPerRank src) (hshare : share plane src r l = share plane dst rank k) :
    Gathers plane src dst rank (k + 1) (runs ++ [⟨k, r, l, 1⟩]) := by
  refine ⟨?_, ?_, ?_⟩
  · intro run hrun
    rcases mem_append.mp hrun with hrun | hrun
    · exact h.beside run hrun
    · cases mem_singleton.mp hrun
      refine ⟨hr, hl, hk, fun j hj => ?_⟩
      obtain rfl : j = 0 := by dsimp only at hj; omega
      exact hshare
  · intro localHead hlocal
    rcases Nat.lt_succ_iff_lt_or_eq.mp hlocal with hlt | rfl
    · obtain ⟨run, hrun, hin⟩ := h.cover localHead hlt
      exact ⟨run, mem_append_left _ hrun, hin⟩
    · exact ⟨_, mem_append_right _ (mem_singleton.mpr rfl), le_rfl, Nat.lt_succ_self _⟩
  · intro run hrun
    rw [getLast?_concat, mem_some] at hrun
    rw [← hrun]

theorem Gathers.extend (h : Gathers plane src dst rank k (runs ++ [run])) (hk : k < plane.headsPerRank dst)
    (hl : run.srcLocal + run.heads < plane.headsPerRank src)
    (hshare : share plane src run.src (run.srcLocal + run.heads) = share plane dst rank k) :
    Gathers plane src dst rank (k + 1) (runs ++ [{ run with heads := run.heads + 1 }]) := by
  have hrun := h.beside run (mem_append_right _ (mem_singleton.mpr rfl))
  have hlast : run.here + run.heads = k := h.last run getLast?_concat
  refine ⟨?_, ?_, ?_⟩
  · intro other hother
    rcases mem_append.mp hother with hother | hother
    · exact h.beside other (mem_append_left _ hother)
    · cases mem_singleton.mp hother
      refine ⟨hrun.group, hl, by dsimp only; omega, fun j hj => ?_⟩
      rcases Nat.lt_succ_iff_lt_or_eq.mp hj with hlt | rfl
      · exact hrun.heads j hlt
      · dsimp only
        rw [hshare, hlast]
  · intro localHead hlocal
    by_cases hin : run.here ≤ localHead
    · exact ⟨_, mem_append_right _ (mem_singleton.mpr rfl), hin, by dsimp only; omega⟩
    · obtain ⟨other, hother, hcover⟩ := h.cover localHead (by omega)
      rcases mem_append.mp hother with hother | hother
      · exact ⟨other, mem_append_left _ hother, hcover⟩
      · cases mem_singleton.mp hother
        exact absurd hcover.1 hin
  · intro other hother
    rw [getLast?_concat, mem_some] at hother
    rw [← hother]
    dsimp only
    omega

theorem Gathers.push (h : Gathers plane src dst rank k runs) (hk : k < plane.headsPerRank dst) (hr : r < src)
    (hl : l < plane.headsPerRank src) (hshare : share plane src r l = share plane dst rank k) :
    Gathers plane src dst rank (k + 1) (pushHead runs k r l) := by
  unfold pushHead
  rcases eq_nil_or_concat runs with rfl | ⟨front, last, rfl⟩
  · exact h.append hk hr hl hshare
  · rw [concat_eq_append] at *
    rw [getLast?_concat]
    dsimp only
    split
    · rename_i hfollows
      obtain ⟨rfl, rfl⟩ := hfollows
      rw [dropLast_concat]
      exact h.extend hk hl hshare
    · exact h.append hk hr hl hshare

theorem runsOf_eq (hfind : Findable plane src dst) (hsrc : 1 ≤ src) (hdst : 1 ≤ dst)
    (hsplit : src ∣ plane.heads.toNat ∨ plane.heads.toNat < src)
    (hsplit' : dst ∣ plane.heads.toNat ∨ plane.heads.toNat < dst) (hrank : rank < dst) :
    ∃ runs, runsOf plane src dst rank = some runs ∧ Gathers plane src dst rank (plane.headsPerRank dst) runs := by
  refine foldlM_range_rule (Gathers plane src dst rank) gathers_init fun k hk runs hruns => ?_
  have hhead := headOf_eq hsplit' hdst hfind.heads hfind.held hrank hk
  have hlt := share_lt hsplit' hdst hfind.heads hrank hk
  obtain ⟨r, l, hsource, hr, hl, hshare⟩ := sourceOf_eq hsplit hsrc hfind.heads hfind.source hlt
  refine ⟨pushHead runs k r l, ?_, hruns.push hk hr hl hshare⟩
  rw [hhead]
  show (sourceOf plane src (share plane dst rank k) >>= fun s => pure (pushHead runs k s.1 s.2)) = _
  rw [hsource]
  rfl

theorem mul32_none {a b : Nat} (h : ¬ a * b < 2 ^ 32) : mul32 a b = none := if_neg h

theorem runsOf_none (hfind : ¬ Findable plane src dst) (hsrc : 1 ≤ src) (hdst : 1 ≤ dst)
    (hsplit' : dst ∣ plane.heads.toNat ∨ plane.heads.toNat < dst) : runsOf plane src dst (dst - 1) = none := by
  refine foldlM_eq_none (a := plane.headsPerRank dst - 1) (fun runs => ?_)
    (mem_range.mpr (Nat.sub_one_lt (ne_of_gt headsPerRank_pos)))
  by_cases hheads : plane.heads.toNat = 0
  · have hhead : plane.headOf dst (dst - 1) (plane.headsPerRank dst - 1) = some 0 := by
      rw [Plane.headOf, if_neg (by omega), hheads, mul32_eq (by rw [mul_zero]; exact Nat.two_pow_pos 32), mul_zero]
      exact congrArg some (Nat.zero_div dst)
    have hsource : sourceOf plane src 0 = none := by
      rw [sourceOf, if_neg (by omega), hheads, mul32_eq (by rw [zero_mul]; exact Nat.two_pow_pos 32)]
      rfl
    rw [hhead]
    show (sourceOf plane src 0 >>= _) = none
    rw [hsource]
    rfl
  by_cases hheld : plane.heads.toNat < dst → (dst - 1) * plane.heads.toNat < 2 ^ 32
  · have hsource : ¬ (plane.heads.toNat < src → (plane.heads.toNat - 1) * src < 2 ^ 32) :=
      fun hsource => hfind ⟨hheads, hheld, hsource⟩
    obtain ⟨hlt, hover⟩ := Classical.not_imp.mp hsource
    rw [headOf_eq hsplit' hdst hheads hheld (by omega) (Nat.sub_one_lt (ne_of_gt headsPerRank_pos)),
      share_last hsplit' hdst hheads]
    show (sourceOf plane src (plane.heads.toNat - 1) >>= _) = none
    rw [sourceOf, if_neg (by omega), mul32_none hover]
    rfl
  · obtain ⟨hlt, hover⟩ := Classical.not_imp.mp hheld
    rw [Plane.headOf, if_neg (by omega), mul32_none hover]
    rfl

end Runs

/-! ## Copying -/

section Copying

variable {a b : PageLayout} {pre post : List Plane} {plane : Plane} {pages page rank : Nat} {elements : Elements}
  {out : List UInt8} {run : Run} {cursor : Cursor}

theorem copy_draws {bytes target xs : List UInt8} {s d : Nat} (hs : Stands bytes s xs) (hd : Stands target d xs)
    (hlen : out.length = target.length) :
    ∃ out', copy bytes out s d xs.length = some out' ∧ Draws target (fun i => d ≤ i ∧ i < d + xs.length) out out' := by
  have hin : s + xs.length ≤ bytes.length ∧ d + xs.length ≤ out.length := ⟨hs.le, by rw [hlen]; exact hd.le⟩
  refine ⟨_, if_pos hin, ?_⟩
  rw [hs.slice_eq]
  exact Draws.patch hd hlen

/-- The size of the planes before. -/
def before (pre : List Plane) (layout : PageLayout) : Nat :=
  (pre.map fun p => planeSize p layout.pageTokens.toNat layout.ranks.toNat).sum

/-- Where a plane of a page begins in a rank of a layout. -/
def planeAt (pre : List Plane) (layout : PageLayout) (pages rank page : Nat) : Nat :=
  rank * (pages * pageSize layout) + page * pageSize layout + before pre layout

/-- The places of a run of a token. -/
def RunPlaces (pre : List Plane) (plane : Plane) (layout : PageLayout) (pages rank page : Nat) (run : Run) (token i : Nat) :
    Prop :=
  planeAt pre layout pages rank page + (token * plane.headsPerRank layout.ranks.toNat + run.here) * plane.head ≤ i ∧
    i < planeAt pre layout pages rank page + (token * plane.headsPerRank layout.ranks.toNat + run.here) * plane.head
      + run.heads * plane.head

theorem copyRun_draws (htokens : b.pageTokens = a.pageTokens) (ha : a.planes = pre ++ plane :: post)
    (hb : b.planes = pre ++ plane :: post) (hrank : rank < b.ranks.toNat) (hpage : page < pages)
    (hrun : Beside plane a.ranks.toNat b.ranks.toNat rank run) (hlen : out.length = (fill b pages elements).length) :
    ∃ out', copyRun (fill a pages elements) a.pageTokens.toNat (plane.headsPerRank a.ranks.toNat)
        (plane.headsPerRank b.ranks.toNat) plane.head ⟨planeAt pre a pages run.src page, planeAt pre b pages rank page⟩
        out run = some out' ∧
      Draws (fill b pages elements)
        (fun i => ∃ token ∈ range a.pageTokens.toNat, RunPlaces pre plane b pages rank page run token i) out out' := by
  refine Draws.foldlM (fun token htoken out hlen => ?_) hlen
  rw [mem_range] at htoken
  have hs := stands_heads elements ha hrun.group hpage htoken hrun.there
  have hd := stands_heads elements hb hrank hpage (by rw [htokens]; exact htoken) hrun.here
  -- the heads of the run are the same model heads on both sides
  have hsame : ((range run.heads).flatMap fun j => headBytes plane
        (elements page pre.length token (share plane a.ranks.toNat run.src (run.srcLocal + j))))
      = (range run.heads).flatMap fun j => headBytes plane
        (elements page pre.length token (share plane b.ranks.toNat rank (run.here + j))) := by
    rw [flatMap_def, flatMap_def]
    refine congrArg flatten (map_congr_left fun j hj => ?_)
    rw [hrun.heads j (mem_range.mp hj)]
  rw [hsame] at hs
  have hwidth : ((range run.heads).flatMap fun j => headBytes plane
      (elements page pre.length token (share plane b.ranks.toNat rank (run.here + j)))).length = run.heads * plane.head :=
    length_flatMap_range fun _ _ => headBytes_length
  have hcopy := copy_draws hs hd hlen
  rw [hwidth] at hcopy
  have hplace : ∀ (layout : PageLayout) (r h : Nat),
      r * (pages * pageSize layout) + (page * pageSize layout
        + ((pre.map fun p => planeSize p layout.pageTokens.toNat layout.ranks.toNat).sum
          + (token * (plane.headsPerRank layout.ranks.toNat * plane.head) + h * plane.head)))
      = planeAt pre layout pages r page + (token * plane.headsPerRank layout.ranks.toNat + h) * plane.head := by
    intro layout r h
    unfold planeAt before
    ring
  rw [hplace, hplace] at hcopy
  exact hcopy

/-- A place of a plane is of some token and of some run. -/
theorem gathers_place {k head tokens o : Nat} {src dst : Nat} {runs : List Run} (hruns : Gathers plane src dst rank k runs)
    (ho : o < tokens * (k * head)) :
    ∃ run ∈ runs, ∃ token ∈ range tokens, (token * k + run.here) * head ≤ o ∧
      o < (token * k + run.here) * head + run.heads * head := by
  have hrow : 0 < k * head := Nat.pos_of_ne_zero fun h0 => by rw [h0, Nat.mul_zero] at ho; exact Nat.not_lt_zero _ ho
  have hhead : 0 < head := Nat.pos_of_ne_zero fun h0 => by rw [h0, mul_zero] at hrow; exact lt_irrefl _ hrow
  have hlocal : o % (k * head) / head < k := by
    rw [Nat.div_lt_iff_lt_mul hhead]
    exact Nat.mod_lt _ hrow
  obtain ⟨run, hrun, hfrom, hto⟩ := hruns.cover _ hlocal
  refine ⟨run, hrun, o / (k * head), mem_range.mpr ?_, ?_⟩
  · rw [Nat.div_lt_iff_lt_mul hrow]
    exact ho
  have hdiv := Nat.div_add_mod o (k * head)
  have hdiv' := Nat.div_add_mod (o % (k * head)) head
  have hmod := Nat.mod_lt (o % (k * head)) hhead
  rw [mul_comm head] at hdiv'
  have hlow : run.here * head ≤ o % (k * head) / head * head := Nat.mul_le_mul_right _ hfrom
  have hhigh : (o % (k * head) / head + 1) * head ≤ (run.here + run.heads) * head := Nat.mul_le_mul_right _ hto
  have hrows : o / (k * head) * k * head = k * head * (o / (k * head)) := by ring
  rw [add_mul, one_mul, add_mul] at hhigh
  rw [add_mul, hrows]
  constructor
  · omega
  · omega

variable {layout : PageLayout}

theorem before_concat :
    before (pre ++ [plane]) layout = before pre layout + planeSize plane layout.pageTokens.toNat layout.ranks.toNat := by
  rw [before, map_append, sum_append, map_singleton, sum_singleton, before]

theorem before_le (hplanes : layout.planes = pre ++ plane :: post) :
    before (pre ++ [plane]) layout ≤ pageSize layout := by
  rw [pageSize, hplanes, map_append, sum_append, map_cons, sum_cons, before_concat, before]
  omega

theorem next_plane (hcounted : Counted layout pages) (hplanes : layout.planes = pre ++ plane :: post) :
    plane.bytes layout.ranks.toNat layout.pageTokens.toNat = some (planeSize plane layout.pageTokens.toNat layout.ranks.toNat) ∧
      checkedAdd (before pre layout) (planeSize plane layout.pageTokens.toNat layout.ranks.toNat)
        = some (before (pre ++ [plane]) layout) := by
  refine ⟨hcounted.planes plane (by rw [hplanes]; exact mem_append_cons_self), ?_⟩
  have hle := before_le hplanes
  rw [before_concat] at hle ⊢
  exact checkedAdd_eq_some.mpr ⟨lt_of_le_of_lt hle hcounted.word, rfl⟩

/-- What the loops go by, for two layouts of the same planes. -/
def sizesOf (a b : PageLayout) (pages : Nat) : Sizes where
  pages := pages
  tokens := a.pageTokens.toNat
  srcPage := pageSize a
  dstPage := pageSize b
  srcRank := pageSize a * pages

/-- The places of a plane of a page of a rank. -/
def PagePlaces (pre : List Plane) (plane : Plane) (layout : PageLayout) (pages rank page i : Nat) : Prop :=
  planeAt pre layout pages rank page ≤ i ∧
    i < planeAt pre layout pages rank page + planeSize plane layout.pageTokens.toNat layout.ranks.toNat

theorem copyPage_draws {runs : List Run} (htokens : b.pageTokens = a.pageTokens) (ha : a.planes = pre ++ plane :: post)
    (hb : b.planes = pre ++ plane :: post) (hrank : rank < b.ranks.toNat) (hpage : page < pages)
    (hruns : Gathers plane a.ranks.toNat b.ranks.toNat rank (plane.headsPerRank b.ranks.toNat) runs)
    (hlen : out.length = (fill b pages elements).length) :
    ∃ out', runs.foldlM (fun out run =>
          copyRun (fill a pages elements) a.pageTokens.toNat (plane.headsPerRank a.ranks.toNat)
            (plane.headsPerRank b.ranks.toNat) plane.head
            ⟨run.src * (pageSize a * pages) + page * pageSize a + before pre a,
              rank * pageSize b * pages + page * pageSize b + before pre b⟩ out run) out = some out' ∧
      Draws (fill b pages elements) (PagePlaces pre plane b pages rank page) out out' := by
  have hplace : ∀ (layout : PageLayout) (r : Nat), r * pageSize layout * pages + page * pageSize layout + before pre layout
      = planeAt pre layout pages r page := by
    intro layout r
    unfold planeAt
    ring
  simp only [← mul_assoc, hplace]
  obtain ⟨out', hout, hdraws⟩ := Draws.foldlM (l := runs)
    (P := fun run i => ∃ token ∈ range a.pageTokens.toNat, RunPlaces pre plane b pages rank page run token i)
    (fun run hrun out hlen => copyRun_draws htokens ha hb hrank hpage (hruns.beside run hrun) hlen) hlen
  refine ⟨out', hout, hdraws.mono ?_⟩
  -- every place of the plane is in some run of some token
  intro i ⟨hle, hlt⟩
  obtain ⟨o, rfl⟩ := Nat.exists_eq_add_of_le hle
  obtain ⟨run, hrun, token, htoken, h₁, h₂⟩ := gathers_place hruns (Nat.lt_of_add_lt_add_left hlt)
  rw [htokens] at htoken
  refine ⟨run, hrun, token, htoken, ?_, ?_⟩
  · exact Nat.add_le_add_left h₁ _
  · rw [add_assoc]
    exact Nat.add_lt_add_left h₂ _

theorem reshardPlane_draws (htokens : b.pageTokens = a.pageTokens) (ha : a.planes = pre ++ plane :: post)
    (hb : b.planes = pre ++ plane :: post) (hca : Counted a pages) (hcb : Counted b pages)
    (hsplits : Splits a.planes a.ranks.toNat) (hsplits' : Splits b.planes b.ranks.toNat)
    (hfind : Findable plane a.ranks.toNat b.ranks.toNat) (hrank : rank < b.ranks.toNat)
    (hsrc : cursor.planeAtSrc = before pre a) (hdst : cursor.planeAtDst = before pre b)
    (hlen : cursor.out.length = (fill b pages elements).length) :
    ∃ cursor', reshardPlane (fill a pages elements) (sizesOf a b pages) a.ranks.toNat b.ranks.toNat rank cursor plane
        = some cursor' ∧
      cursor'.planeAtSrc = before (pre ++ [plane]) a ∧ cursor'.planeAtDst = before (pre ++ [plane]) b ∧
      Draws (fill b pages elements) (fun i => ∃ page ∈ range pages, PagePlaces pre plane b pages rank page i)
        cursor.out cursor'.out := by
  have hmem : plane ∈ a.planes := by rw [ha]; exact mem_append_cons_self
  have hmem' : plane ∈ b.planes := by rw [hb]; exact mem_append_cons_self
  obtain ⟨runs, hruns, hgathers⟩ :=
    runsOf_eq hfind hsplits.1 hsplits'.1 (hsplits.2 plane hmem) (hsplits'.2 plane hmem') hrank
  obtain ⟨out', hout, hdraws⟩ := Draws.foldlM (l := range pages) (P := PagePlaces pre plane b pages rank)
    (fun page hpage out hlen => copyPage_draws htokens ha hb hrank (mem_range.mp hpage) hgathers hlen) hlen
  obtain ⟨hbytes, hadd⟩ := next_plane hca ha
  obtain ⟨hbytes', hadd'⟩ := next_plane hcb hb
  rw [htokens] at hbytes' hadd'
  refine ⟨⟨out', before (pre ++ [plane]) b, before (pre ++ [plane]) a⟩, ?_, rfl, rfl, hdraws⟩
  unfold reshardPlane
  rw [hsrc, hdst]
  refine bind_eq_some_iff.mpr ⟨runs, hruns, ?_⟩
  refine bind_eq_some_iff.mpr ⟨out', hout, ?_⟩
  refine bind_eq_some_iff.mpr ⟨_, hbytes, ?_⟩
  refine bind_eq_some_iff.mpr ⟨_, hadd, ?_⟩
  refine bind_eq_some_iff.mpr ⟨_, hbytes', ?_⟩
  exact bind_eq_some_iff.mpr ⟨_, hadd', rfl⟩

/-- The places of a rank. -/
def RankPlaces (layout : PageLayout) (pages rank i : Nat) : Prop :=
  ∃ pre plane post, layout.planes = pre ++ plane :: post ∧
    ∃ page ∈ List.range pages, PagePlaces pre plane layout pages rank page i

theorem planes_draws (htokens : b.pageTokens = a.pageTokens) (hplanes : b.planes = a.planes) (hca : Counted a pages)
    (hcb : Counted b pages) (hsplits : Splits a.planes a.ranks.toNat) (hsplits' : Splits b.planes b.ranks.toNat)
    (hfind : ∀ plane ∈ a.planes, Findable plane a.ranks.toNat b.ranks.toNat) (hrank : rank < b.ranks.toNat) :
    ∀ (post pre : List Plane) (cursor : Cursor), a.planes = pre ++ post →
      cursor.planeAtSrc = before pre a → cursor.planeAtDst = before pre b →
      cursor.out.length = (fill b pages elements).length →
      ∃ cursor', post.foldlM (reshardPlane (fill a pages elements) (sizesOf a b pages) a.ranks.toNat b.ranks.toNat rank)
          cursor = some cursor' ∧
        Draws (fill b pages elements) (fun i => ∃ mid plane rest, post = mid ++ plane :: rest ∧
          ∃ page ∈ range pages, PagePlaces (pre ++ mid) plane b pages rank page i) cursor.out cursor'.out := by
  intro post
  induction post with
  | nil =>
    intro pre cursor _ _ _ _
    refine ⟨cursor, rfl, Draws.refl.mono fun i ⟨mid, plane, rest, h, _⟩ => ?_⟩
    exact cons_ne_nil _ _ (append_eq_nil_iff.mp h.symm).2
  | cons plane post ih =>
    intro pre cursor ha hsrc hdst hlen
    have hmem : plane ∈ a.planes := by rw [ha]; exact mem_append_cons_self
    obtain ⟨cursor₁, h₁, hsrc₁, hdst₁, hdraws₁⟩ := reshardPlane_draws htokens ha (hplanes.trans ha) hca hcb hsplits
      hsplits' (hfind plane hmem) hrank hsrc hdst hlen
    obtain ⟨cursor₂, h₂, hdraws₂⟩ := ih (pre ++ [plane]) _ (by rw [ha, append_assoc]; rfl) hsrc₁ hdst₁
      (hdraws₁.length.trans hlen)
    refine ⟨cursor₂, by rw [foldlM_cons, h₁]; exact h₂, (hdraws₁.trans hdraws₂).mono ?_⟩
    intro i ⟨mid, other, rest, hpost, hpage⟩
    rcases cons_eq_append_iff.mp hpost with ⟨rfl, hcons⟩ | ⟨mid, rfl, hrest⟩
    · cases hcons
      rw [append_nil] at hpage
      exact .inl hpage
    · refine .inr ⟨mid, other, rest, hrest, ?_⟩
      rw [append_assoc]
      exact hpage

theorem rankPlaces_of_lt {i : Nat} (hi : i < layout.ranks.toNat * (pages * pageSize layout)) :
    ∃ rank ∈ range layout.ranks.toNat, RankPlaces layout pages rank i := by
  have hrankSize : 0 < pages * pageSize layout :=
    Nat.pos_of_ne_zero fun h0 => by rw [h0, Nat.mul_zero] at hi; exact Nat.not_lt_zero _ hi
  have hpageSize : 0 < pageSize layout :=
    Nat.pos_of_ne_zero fun h0 => by rw [h0, mul_zero] at hrankSize; exact lt_irrefl _ hrankSize
  have hrank : i / (pages * pageSize layout) < layout.ranks.toNat := by
    rw [Nat.div_lt_iff_lt_mul hrankSize]
    exact hi
  have hpage : i % (pages * pageSize layout) / pageSize layout < pages := by
    rw [Nat.div_lt_iff_lt_mul hpageSize]
    exact Nat.mod_lt _ hrankSize
  obtain ⟨pre, plane, post, hplanes, hle, hlt⟩ := exists_piece (l := layout.planes)
    (g := fun p => planeSize p layout.pageTokens.toNat layout.ranks.toNat)
    (i := i % (pages * pageSize layout) % pageSize layout) (Nat.mod_lt _ hpageSize)
  refine ⟨_, mem_range.mpr hrank, pre, plane, post, hplanes, _, mem_range.mpr hpage, ?_⟩
  have hdiv := Nat.div_add_mod i (pages * pageSize layout)
  have hdiv' := Nat.div_add_mod (i % (pages * pageSize layout)) (pageSize layout)
  rw [mul_comm] at hdiv hdiv'
  unfold PagePlaces planeAt before
  constructor
  · omega
  · omega

theorem ranks_draw (htokens : b.pageTokens = a.pageTokens) (hplanes : b.planes = a.planes) (hca : Counted a pages)
    (hcb : Counted b pages) (hsplits : Splits a.planes a.ranks.toNat) (hsplits' : Splits b.planes b.ranks.toNat)
    (hfind : ∀ plane ∈ a.planes, Findable plane a.ranks.toNat b.ranks.toNat)
    (hlen : out.length = (fill b pages elements).length) :
    (range b.ranks.toNat).foldlM
      (reshardRank (fill a pages elements) (sizesOf a b pages) a.ranks.toNat b) out = some (fill b pages elements) := by
  obtain ⟨out', hout, hdraws⟩ := Draws.foldlM (l := range b.ranks.toNat) (P := RankPlaces b pages)
    (f := reshardRank (fill a pages elements) (sizesOf a b pages) a.ranks.toNat b) (fun rank hrank out hlen => by
      obtain ⟨cursor', hcursor, hdraws⟩ := planes_draws htokens hplanes hca hcb hsplits hsplits' hfind
        (mem_range.mp hrank) a.planes [] ⟨out, 0, 0⟩ rfl rfl rfl hlen
      rw [← hplanes] at hcursor hdraws
      refine ⟨cursor'.out, ?_, hdraws⟩
      rw [reshardRank, hcursor]
      rfl) hlen
  rw [hout]
  refine congrArg some (hdraws.eq hlen fun i hi => ?_)
  rw [fill_length] at hi
  exact rankPlaces_of_lt hi

end Copying

/-! ## Laying out again -/

section Reshard

variable {planes : List Plane} {a b c : PageLayout} {pages : Nat} {elements : Elements}

/-- Both sizes are counted, and no search for a head overflows. -/
def Fits (a b : PageLayout) (pages : Nat) : Prop :=
  a = b ∨ (∃ size, a.bytes pages = some size) ∧ (∃ size, b.bytes pages = some size ∧ size < 2 ^ 63) ∧
    ∀ plane ∈ a.planes, Findable plane a.ranks.toNat b.ranks.toNat

theorem convertibleTo_iff : a.convertibleTo b = true ↔ a.pageTokens = b.pageTokens ∧ a.planes = b.planes := by
  rw [PageLayout.convertibleTo, Bool.and_eq_true, beq_iff_eq, beq_iff_eq]

/-- Past the checks of the layouts and of the length. -/
theorem reshard_counted (hne : a ≠ b) (htokens : b.pageTokens = a.pageTokens) (hplanes : b.planes = a.planes)
    (hca : Counted a pages) :
    reshard (fill a pages elements) pages a b = (do
      let dstPage ← b.rankPageBytes
      let srcRank ← checkedMul (pageSize a) pages
      let out ← zeroes (← b.bytes pages)
      return .ok (← (range b.ranks.toNat).foldlM
        (reshardRank (fill a pages elements) ⟨pages, a.pageTokens.toNat, pageSize a, dstPage, srcRank⟩ a.ranks.toNat b)
        out)) := by
  have hconv : a.convertibleTo b = true := convertibleTo_iff.mpr ⟨htokens.symm, hplanes.symm⟩
  unfold reshard
  rw [if_neg hne, hconv, hca.bytes, hca.page]
  simp only [Bool.not_true, Bool.false_eq_true, if_false, bind_eq_bind, bind_some, fill_length, ne_eq,
    not_true_eq_false]

theorem checkedMul_rank (hca : Counted a pages) (hranks : 1 ≤ a.ranks.toNat) :
    checkedMul (pageSize a) pages = some (pageSize a * pages) := by
  refine checkedMul_eq_some.mpr ⟨lt_of_le_of_lt ?_ hca.fits, rfl⟩
  rw [mul_comm (pageSize a)]
  exact Nat.le_mul_of_pos_left _ hranks

/-- The layout filled from the same elements comes out. -/
theorem reshard_fill (htokens : b.pageTokens = a.pageTokens) (hplanes : b.planes = a.planes)
    (hsplits : Splits a.planes a.ranks.toNat) (hsplits' : Splits b.planes b.ranks.toNat) (hfits : Fits a b pages) :
    reshard (fill a pages elements) pages a b = some (.ok (fill b pages elements)) := by
  by_cases hne : a = b
  · subst hne
    rw [reshard, if_pos rfl]
    rfl
  obtain ⟨⟨size, hsize⟩, ⟨size', hsize', hword⟩, hfind⟩ := hfits.resolve_left hne
  have hca := counted hsize
  have hcb := counted hsize'
  rw [hcb.bytes] at hsize'
  cases hsize'
  rw [reshard_counted hne htokens hplanes hca, hcb.page, hcb.bytes, checkedMul_rank hca hsplits.1]
  simp only [bind_eq_bind, bind_some, zeroes, if_pos hword]
  have hzeroes : (replicate (b.ranks.toNat * (pages * pageSize b)) (0 : UInt8)).length = (fill b pages elements).length := by
    rw [length_replicate, fill_length]
  have hdraw := ranks_draw htokens hplanes hca hcb hsplits hsplits' hfind hzeroes
  rw [sizesOf] at hdraw
  rw [hdraw]
  rfl

theorem reshard_none (htokens : b.pageTokens = a.pageTokens) (hplanes : b.planes = a.planes)
    (hsplits : Splits a.planes a.ranks.toNat) (hsplits' : Splits b.planes b.ranks.toNat) (hfits : ¬ Fits a b pages) :
    reshard (fill a pages elements) pages a b = none := by
  have hne : a ≠ b := fun heq => hfits (.inl heq)
  cases hsize : a.bytes pages with
  | none =>
    rw [reshard, if_neg hne, convertibleTo_iff.mpr ⟨htokens.symm, hplanes.symm⟩, hsize]
    rfl
  | some size =>
    have hca := counted hsize
    rw [reshard_counted hne htokens hplanes hca]
    cases hsize' : b.bytes pages with
    | none =>
      cases b.rankPageBytes with
      | none => rfl
      | some _ => cases checkedMul (pageSize a) pages <;> rfl
    | some size' =>
      have hcb := counted hsize'
      rw [hcb.page, checkedMul_rank hca hsplits.1]
      simp only [bind_eq_bind, bind_some]
      by_cases hword : size' < 2 ^ 63
      · have hfind : ¬ ∀ plane ∈ a.planes, Findable plane a.ranks.toNat b.ranks.toNat :=
          fun hfind => hfits (.inr ⟨⟨size, hsize⟩, ⟨size', hsize', hword⟩, hfind⟩)
        push Not at hfind
        obtain ⟨plane, hplane, hfind⟩ := hfind
        rw [zeroes, if_pos hword, bind_some]
        have hranks := hsplits'.1
        rw [← hplanes] at hplane
        -- the last rank comes to a plane whose runs are not found
        rw [foldlM_eq_none (a := b.ranks.toNat - 1) (fun out => ?_) (mem_range.mpr (by omega))]
        · rfl
        · rw [reshardRank, foldlM_eq_none (fun cursor => ?_) hplane]
          · rfl
          · rw [reshardPlane, runsOf_none hfind hsplits.1 hsplits'.1 (hsplits'.2 plane hplane)]
            rfl
      · rw [zeroes, if_neg hword]
        rfl

/-- `reshard` of what another one gave. -/
def thenReshard (given : Option (Except String (List UInt8))) (pages : Nat) (a b : PageLayout) :
    Option (Except String (List UInt8)) :=
  match given with
  | some (.ok bytes) => reshard bytes pages a b
  | other => other

/-- Resharding moves every filled layout, there and back, and through a third one. -/
structure Lossless (a b c : PageLayout) (pages : Nat) : Prop where
  moves : ∀ elements, reshard (fill a pages elements) pages a b = some (.ok (fill b pages elements))
  back : ∀ elements, thenReshard (reshard (fill a pages elements) pages a b) pages b a = some (.ok (fill a pages elements))
  through : ∀ elements, thenReshard (reshard (fill a pages elements) pages a c) pages c b
    = reshard (fill a pages elements) pages a b

/-- **Resharding is lossless where the sizes and the searches for heads do not overflow.** -/
theorem reshard_lossless_iff (planes : List Plane) (pageTokens src dst third : UInt32) (pages : Nat)
    (hsrc : Splits planes src.toNat) (hdst : Splits planes dst.toNat) (hthird : Splits planes third.toNat) :
    Lossless ⟨src, pageTokens, planes⟩ ⟨dst, pageTokens, planes⟩ ⟨third, pageTokens, planes⟩ pages ↔
      Fits ⟨src, pageTokens, planes⟩ ⟨dst, pageTokens, planes⟩ pages ∧
      Fits ⟨dst, pageTokens, planes⟩ ⟨src, pageTokens, planes⟩ pages ∧
      Fits ⟨src, pageTokens, planes⟩ ⟨third, pageTokens, planes⟩ pages ∧
      Fits ⟨third, pageTokens, planes⟩ ⟨dst, pageTokens, planes⟩ pages := by
  have hfill : ∀ {r r' : UInt32}, Splits planes r.toNat → Splits planes r'.toNat → ∀ {elements},
      Fits ⟨r, pageTokens, planes⟩ ⟨r', pageTokens, planes⟩ pages →
        reshard (fill ⟨r, pageTokens, planes⟩ pages elements) pages ⟨r, pageTokens, planes⟩ ⟨r', pageTokens, planes⟩
          = some (.ok (fill ⟨r', pageTokens, planes⟩ pages elements)) :=
    fun h h' _ hfits => reshard_fill rfl rfl h h' hfits
  have hnone : ∀ {r r' : UInt32}, Splits planes r.toNat → Splits planes r'.toNat → ∀ {elements},
      ¬ Fits ⟨r, pageTokens, planes⟩ ⟨r', pageTokens, planes⟩ pages →
        reshard (fill ⟨r, pageTokens, planes⟩ pages elements) pages ⟨r, pageTokens, planes⟩ ⟨r', pageTokens, planes⟩ = none :=
    fun h h' _ hfits => reshard_none rfl rfl h h' hfits
  constructor
  · intro h
    have hmoves := h.moves fun _ _ _ _ _ _ => 0
    have hback := h.back fun _ _ _ _ _ _ => 0
    have hthrough := h.through fun _ _ _ _ _ _ => 0
    have hto : Fits ⟨src, pageTokens, planes⟩ ⟨dst, pageTokens, planes⟩ pages := by
      by_contra hfits
      rw [hnone hsrc hdst hfits] at hmoves
      cases hmoves
    rw [hmoves] at hback hthrough
    have hvia : Fits ⟨src, pageTokens, planes⟩ ⟨third, pageTokens, planes⟩ pages := by
      by_contra hfits
      rw [hnone hsrc hthird hfits] at hthrough
      cases hthrough
    rw [hfill hsrc hthird hvia] at hthrough
    refine ⟨hto, ?_, hvia, ?_⟩
    · by_contra hfits
      rw [thenReshard, hnone hdst hsrc hfits] at hback
      cases hback
    · by_contra hfits
      rw [thenReshard, hnone hthird hdst hfits] at hthrough
      cases hthrough
  · intro ⟨hto, hfrom, hvia, hon⟩
    refine ⟨fun elements => hfill hsrc hdst hto, fun elements => ?_, fun elements => ?_⟩
    · rw [hfill hsrc hdst hto]
      exact hfill hdst hsrc hfrom
    · rw [hfill hsrc hthird hvia, hfill hsrc hdst hto]
      exact hfill hthird hdst hon

end Reshard

/-- Four heads over one rank, two and four: two heads to a rank, then one. -/
theorem reshard_lossless_four : let plane : Plane := ⟨4, 2, 1⟩
    Lossless ⟨1, 2, [plane]⟩ ⟨2, 2, [plane]⟩ ⟨4, 2, [plane]⟩ 3 := by
  refine (reshard_lossless_iff _ _ _ _ _ _ ⟨by decide, ?_⟩ ⟨by decide, ?_⟩ ⟨by decide, ?_⟩).mpr ⟨?_, ?_, ?_, ?_⟩
  · intro plane hplane
    cases List.mem_singleton.mp hplane
    decide
  · intro plane hplane
    cases List.mem_singleton.mp hplane
    decide
  · intro plane hplane
    cases List.mem_singleton.mp hplane
    decide
  all_goals
    refine .inr ⟨⟨_, rfl⟩, ⟨_, rfl, by decide⟩, fun plane hplane => ?_⟩
    cases List.mem_singleton.mp hplane
    exact ⟨by decide, by decide, by decide⟩

/-- A plane of 65536 heads over twice as many ranks: the search for the middle
rank's head overflows. -/
theorem wide_group_overflows : let plane : Plane := ⟨65536, 1, 1⟩
    Splits [plane] (UInt32.toNat 1) ∧ Splits [plane] (UInt32.toNat 131072) ∧
      ∀ elements, reshard (fill ⟨1, 1, [plane]⟩ 1 elements) 1 ⟨1, 1, [plane]⟩ ⟨131072, 1, [plane]⟩
        ≠ some (.ok (fill ⟨131072, 1, [plane]⟩ 1 elements)) := by
  have hone : Splits [⟨65536, 1, 1⟩] (UInt32.toNat 1) := by
    refine ⟨by decide, fun plane hplane => ?_⟩
    cases List.mem_singleton.mp hplane
    exact .inl ⟨_, (Nat.one_mul _).symm⟩
  have hmany : Splits [⟨65536, 1, 1⟩] (UInt32.toNat 131072) := by
    refine ⟨by decide, fun plane hplane => ?_⟩
    cases List.mem_singleton.mp hplane
    exact .inr (by decide)
  have hfits : ¬ Fits ⟨1, 1, [⟨65536, 1, 1⟩]⟩ ⟨131072, 1, [⟨65536, 1, 1⟩]⟩ 1 := by
    intro hfits
    rcases hfits with hsame | ⟨_, _, hfind⟩
    · exact absurd (congrArg PageLayout.ranks hsame) (by decide)
    · exact absurd ((hfind _ mem_cons_self).held (by decide)) (by decide)
  refine ⟨hone, hmany, fun elements heq => ?_⟩
  have hpanics : none = some _ :=
    (reshard_none (a := ⟨1, 1, [⟨65536, 1, 1⟩]⟩) (b := ⟨131072, 1, [⟨65536, 1, 1⟩]⟩) rfl rfl hone hmany hfits).symm.trans heq
  cases hpanics

end Pie.Proof.Resharding
