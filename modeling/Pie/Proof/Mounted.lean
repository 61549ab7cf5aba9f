import Pie.Lib.Patches
import Pie.Lib.Stops
import Pie.Ztensor.Memfs

/-!
# A mounted file reads like a flat one

Whatever its parts are, or however much of it has been fetched and kept, a read
of a mounted file gives the bytes of the file, unless the range is outside of it
or a fetch that was made for the read failed. The windows that are kept hold the
bytes of the file at their places, and before the pinned tail there are not more
of them than are to be kept.
-/

namespace Pie.Proof.Mounted

open List hiding after
open Pie.Memfs Lib Records Patches Spans Lazy

/-- The program gives a value and a cache in `Q`, or fails with a cache in `E`; it does not panic. -/
abbrev Gives {α : Type} (r : EStateM.Result (Stop String) Cache α) (Q : α → Cache → Prop) (E : Cache → Prop) : Prop :=
  Outcome False r Q fun _ => E

/-! ## What is kept -/

section Windows

variable {file : Lazy} {remote : Remote} {cache before : Cache} {windows : List (Nat × List UInt8)}

/-- The kept windows hold the bytes of the file, each is there once, and they are few. -/
structure Kept (file : Lazy) (remote : Remote) (cache : Cache) : Prop where
  bytes : ∀ w ∈ cache.windows, w.2 = slice remote.bytes w.1 (file.stop w.1 - w.1)
  distinct : (cache.windows.map Prod.fst).Nodup
  few : cache.windows.countP file.unpinned ≤ file.keep

theorem kept_empty : Kept file remote Cache.empty :=
  ⟨fun _ h => (nomatch h), nodup_nil, Nat.zero_le _⟩

theorem evict_sublist : ∀ {n : Nat} {windows : List (Nat × List UInt8)}, (file.evict n windows).Sublist windows := by
  intro n
  induction n with
  | zero => exact Sublist.refl _
  | succ n ih =>
    intro windows
    unfold evict
    split
    · split
      · exact ih.trans (eraseIdx_sublist _ _)
      · exact Sublist.refl _
    · exact Sublist.refl _

theorem evict_few : ∀ {n : Nat} {windows : List (Nat × List UInt8)}, windows.countP file.unpinned ≤ n →
    (file.evict n windows).countP file.unpinned ≤ file.keep := by
  intro n
  induction n with
  | zero => exact fun h => h.trans (Nat.zero_le _)
  | succ n ih =>
    intro windows h
    unfold evict
    split
    · split
      · rename_i oldest hfind
        have herase := @List.eraseP_eq_eraseIdx _ windows file.unpinned
        rw [hfind] at herase
        obtain ⟨hlt, hp, -⟩ := findIdx?_eq_some_iff_getElem.mp hfind
        obtain ⟨w, front, back, -, hw, rfl, hrest⟩ := exists_of_eraseP (getElem_mem hlt) hp
        dsimp only at herase
        rw [← herase, hrest]
        refine ih ?_
        rw [countP_append, countP_cons_of_pos hw] at h
        rw [countP_append]
        omega
      · rename_i hnone
        have hzero : windows.countP file.unpinned = 0 :=
          countP_eq_zero.mpr fun w hw => by rw [findIdx?_eq_none_iff.mp hnone w hw]; exact Bool.false_ne_true
        omega
    · omega

theorem Kept.perm (h : Kept file remote cache) (hp : windows.Perm cache.windows) :
    Kept file remote { cache with windows } := by
  refine ⟨fun w hw => h.bytes w (hp.mem_iff.mp hw), ?_, ?_⟩
  · exact (hp.map Prod.fst).nodup_iff.mpr h.distinct
  · exact le_of_eq (hp.countP_eq _) |>.trans h.few

theorem used_perm {p : Nat × List UInt8 → Bool} {w : Nat × List UInt8} (h : windows.find? p = some w) :
    (windows.eraseP p ++ [w]).Perm windows := by
  obtain ⟨hw, front, back, rfl, hfront⟩ := find?_eq_some_iff_append.mp h
  rw [eraseP_append_right _ (fun b hb => by
    have := hfront b hb
    rw [Bool.not_eq_true'] at this
    rw [this]
    exact Bool.false_ne_true), eraseP_cons_of_pos hw, append_assoc]
  exact (@List.perm_append_comm _ back [w]).append_left front

variable {E : Cache → Prop} {Q : List UInt8 → Cache → Prop}

/-- A window of the file is put with those that are kept. -/
theorem Kept.keepWindow (h : Kept file remote cache) {start : Nat} {window : List UInt8}
    (hbytes : window = slice remote.bytes start (file.stop start - start)) {Q : Unit → Cache → Prop}
    (hQ : ∀ windows, Kept file remote { cache with windows } → Q ⟨⟩ { cache with windows }) :
    Gives (file.keepWindow start window cache) Q E := by
  refine hQ _ ⟨fun w hw => ?_, ?_, evict_few le_rfl⟩
  · rcases mem_append.mp (evict_sublist.subset hw) with hw | hw
    · exact h.bytes w (mem_of_mem_filter hw)
    · rw [mem_singleton.mp hw]
      exact hbytes
  · refine Nodup.sublist (evict_sublist.map Prod.fst) ?_
    rw [map_append, nodup_append]
    refine ⟨h.distinct.sublist (filter_sublist.map Prod.fst), nodup_singleton _, ?_⟩
    intro a ha b hb
    obtain ⟨w, hw, rfl⟩ := mem_map.mp ha
    rw [map_singleton, mem_singleton] at hb
    rw [hb]
    exact of_decide_eq_true (mem_filter.mp hw).2

/-! ## Fetching -/

/-- The requests from one cache to a later one all succeeded. -/
def Since (remote : Remote) (before cache : Cache) : Prop :=
  before.requests ≤ cache.requests ∧ ∀ i, before.requests ≤ i → i < cache.requests → remote.failure i = none

/-- One of the requests from one cache to a later one failed. -/
def Failed (remote : Remote) (before cache : Cache) : Prop :=
  ∃ i, before.requests ≤ i ∧ i < cache.requests ∧ remote.failure i ≠ none

/-- The state between two steps of a read. -/
structure Going (file : Lazy) (remote : Remote) (before cache : Cache) : Prop where
  kept : Kept file remote cache
  since : Since remote before cache

/-- The state after a read that failed. -/
def Gone (file : Lazy) (remote : Remote) (before cache : Cache) : Prop :=
  Kept file remote cache ∧ Failed remote before cache

theorem since_refl : Since remote cache cache :=
  ⟨le_rfl, fun _ h₁ h₂ => absurd h₂ (not_lt.mpr h₁)⟩

theorem fetch_gives (h : Going file remote before cache) (offset n : Nat) : Gives (fetch remote offset n cache)
      (fun bytes after => bytes = slice remote.bytes offset n ∧ Going file remote before after)
      (Gone file remote before) := by
  unfold fetch
  split
  · rename_i hnone
    refine ⟨rfl, ⟨h.kept.bytes, h.kept.distinct, h.kept.few⟩, Nat.le_succ_of_le h.since.1, fun i hlow hhigh => ?_⟩
    rcases Nat.lt_succ_iff_lt_or_eq.mp hhigh with hlt | rfl
    · exact h.since.2 i hlow hlt
    · exact hnone
  · rename_i why hsome
    refine ⟨⟨h.kept.bytes, h.kept.distinct, h.kept.few⟩, cache.requests, h.since.1, Nat.lt_succ_self _, ?_⟩
    rw [hsome]
    exact Option.some_ne_none _

theorem part_gives {bytes : List UInt8} {start n : Nat}
    (hle : start + n ≤ bytes.length) (h : Q (slice bytes start n) cache) : Gives (part bytes start n cache) Q E := by
  unfold part
  rw [if_pos hle]
  exact h

theorem copyInto_gives {into bytes : List UInt8} {dst : Nat} (hle : dst + bytes.length ≤ into.length)
    (h : Q (into.take dst ++ bytes ++ into.drop (dst + bytes.length)) cache) : Gives (copyInto into dst bytes cache) Q E := by
  unfold copyInto
  rw [if_pos hle]
  exact h

/-! ## One window of a read -/

variable {into : List UInt8} {offset n a m : Nat} {p : Progress}

/-- Bytes of the file are put where the read has their place. -/
theorem copy_gives (cache : Cache) {P : Nat → Prop} {out : List UInt8} (hinto : into.length = n)
    (hn : offset + n ≤ remote.bytes.length) (hlow : offset ≤ a) (hhigh : a + m ≤ offset + n)
    (h : Draws (slice remote.bytes offset n) P into out) :
    Gives (copyInto out (a - offset) (slice remote.bytes a m) cache)
      (fun out after => after = cache ∧
        Draws (slice remote.bytes offset n) (fun i => P i ∨ a ≤ offset + i ∧ offset + i < a + m) into out) E := by
  have hlen : (slice remote.bytes offset n).length = n := slice_length hn
  have hm : (slice remote.bytes a m).length = m := slice_length (by omega)
  have hstands : Stands (slice remote.bytes offset n) (a - offset) (slice remote.bytes (offset + (a - offset)) m) :=
    Stands.slice (by omega) hn
  rw [Nat.add_sub_cancel' hlow] at hstands
  have hout : out.length = (slice remote.bytes offset n).length := by rw [h.length, hinto, hlen]
  refine copyInto_gives (by rw [hm, hout, hlen]; omega) ⟨rfl, (h.trans (Draws.patch hstands hout)).mono fun i hi => ?_⟩
  rcases hi with hi | ⟨h₁, h₂⟩
  · exact .inl hi
  · exact .inr ⟨by omega, by rw [hm]; omega⟩

/-- How far a read has come: everything before the run that waits is there. -/
structure Reading (remote : Remote) (into : List UInt8) (offset n : Nat) (p : Progress) : Prop where
  low : offset ≤ p.run.getD p.cursor
  run : p.run.getD p.cursor ≤ p.cursor
  high : p.cursor ≤ offset + n
  drawn : Draws (slice remote.bytes offset n) (fun i => offset + i < p.run.getD p.cursor) into p.into

theorem flush_gives {P : Nat → Prop} (h : Going file remote before cache) (hinto : into.length = n)
    (hn : offset + n ≤ remote.bytes.length) (hlow : offset ≤ p.run.getD p.cursor) (hrun : p.run.getD p.cursor ≤ p.cursor)
    (hhigh : p.cursor ≤ offset + n) (hdrawn : Draws (slice remote.bytes offset n) P into p.into) :
    Gives (flush remote offset p.cursor p cache)
      (fun p' after => Going file remote before after ∧ p'.run = none ∧ p'.cursor = p.cursor ∧
        Draws (slice remote.bytes offset n) (fun i => P i ∨ p.run.getD p.cursor ≤ offset + i ∧ offset + i < p.cursor)
          into p'.into)
      (Gone file remote before) := by
  rcases p with ⟨cursor, _ | start, out⟩
  · refine ⟨h, rfl, rfl, hdrawn.mono fun i hi => ?_⟩
    rcases hi with hi | ⟨h₁, h₂⟩
    · exact hi
    · exact absurd h₁ (not_le.mpr h₂)
  · rw [Option.getD_some] at *
    dsimp only at *
    have hlen : out.length = n := by rw [hdrawn.length, hinto]
    unfold flush
    dsimp only
    rw [if_neg (by omega)]
    refine Outcome.bind ((fetch_gives h _ _).mono fun bytes after hbytes => ?_)
    obtain ⟨rfl, hgoing⟩ := hbytes
    refine Outcome.bind ((copy_gives _ hinto hn hlow (by omega) hdrawn).mono fun out after' hout => ?_)
    obtain ⟨rfl, hdraws⟩ := hout
    refine ⟨hgoing, rfl, rfl, hdraws.mono fun i hi => ?_⟩
    rcases hi with hi | hi
    · exact .inl hi
    · exact .inr ⟨hi.1, by omega⟩

theorem window_around (hwindow : 0 < file.window) (hlen : file.len ≤ U64_MAX) {cursor : Nat} (hcursor : cursor < file.len) :
    cursor - cursor % file.window ≤ cursor ∧ cursor < file.stop (cursor - cursor % file.window) ∧
      file.stop (cursor - cursor % file.window) ≤ file.len := by
  have hmod := Nat.mod_lt cursor hwindow
  unfold stop saturatingAdd
  omega

section

variable (hlen : file.len = remote.bytes.length) (hmax : file.len ≤ U64_MAX) (hwindow : 0 < file.window)
include hlen hmax hwindow

/-- A turn takes the part of one window that is asked for. -/
theorem turn_gives
    (h : Going file remote before cache) (hinto : into.length = n) (hn : offset + n ≤ remote.bytes.length)
    (hp : Reading remote into offset n p) (hlt : p.cursor < offset + n) :
    Gives (file.turn remote offset (offset + n) p cache)
      (fun p' after => Going file remote before after ∧ Reading remote into offset n p' ∧ p.cursor < p'.cursor)
      (Gone file remote before) := by
  have hcursor : p.cursor < file.len := by omega
  obtain ⟨hle, hstop, hwithin⟩ := window_around hwindow hmax hcursor
  have hrun := hp.run
  have hlow := hp.low
  unfold turn
  generalize hstart : p.cursor - p.cursor % file.window = start at *
  generalize htake : min (file.stop start) (offset + n) = take at *
  have hwide : (slice remote.bytes start (file.stop start - start)).length = file.stop start - start :=
    slice_length (by omega)
  -- the part of a window of the file is the part of the file
  have hpart : slice (slice remote.bytes start (file.stop start - start)) (p.cursor - start) (take - p.cursor)
      = slice remote.bytes p.cursor (take - p.cursor) := by
    rw [slice_slice (by omega), Nat.add_sub_cancel' hle]
  have hread : ∀ {p' : Progress}, p'.run = none →
      Draws (slice remote.bytes offset n) (fun i => offset + i < take) into p'.into →
        Reading remote into offset n { p' with cursor := take } := by
    intro p' hnone hdrawn
    obtain ⟨_, run, out⟩ := p'
    cases hnone
    refine ⟨?_, le_rfl, ?_, hdrawn⟩
    · show offset ≤ take
      omega
    · show take ≤ offset + n
      omega
  refine Outcome.bind (Outcome.get ?_)
  cases hfind : cache.windows.find? fun w => w.1 = start with
  | some w =>
    have hw : w.1 = start := by
      have := find?_some hfind
      exact of_decide_eq_true this
    have hbytes := h.kept.bytes w (mem_of_find?_eq_some hfind)
    rw [hw] at hbytes
    dsimp only
    refine Outcome.bind (part_gives (by rw [hbytes, hwide]; omega) ?_)
    rw [hbytes, hpart]
    refine Outcome.bind ((copy_gives _ hinto hn (by omega) (by omega) hp.drawn).mono fun out after hout => ?_)
    obtain ⟨rfl, hdraws⟩ := hout
    refine Outcome.bind (Outcome.set ?_)
    have hused : Going file remote before
        { after with windows := after.windows.eraseP (fun w => w.1 = start) ++ [(w.1, w.2)] } :=
      ⟨h.kept.perm (used_perm hfind), h.since⟩
    rw [← hbytes]
    refine Outcome.bind ((flush_gives (p := { p with into := out }) hused hinto hn hp.low hp.run hp.high hdraws).mono
      fun p' after' hp' => ?_)
    obtain ⟨hgoing, hnone, hcursor, hdrawn⟩ := hp'
    refine ⟨hgoing, hread hnone (hdrawn.mono fun i hi => ?_), by dsimp only; omega⟩
    dsimp only
    omega
  | none =>
    dsimp only
    split
    · rename_i hwhole
      -- the run goes on, or starts here; nothing is fetched
      refine ⟨h, ⟨hlow, ?_, ?_, hp.drawn⟩, by dsimp only; omega⟩
      · show p.run.getD p.cursor ≤ take
        omega
      · show take ≤ offset + n
        omega
    · refine Outcome.bind ((flush_gives h hinto hn hp.low hp.run hp.high hp.drawn).mono fun p' after hp' => ?_)
      obtain ⟨hgoing, hnone, hcursor, hdrawn⟩ := hp'
      refine Outcome.bind ((fetch_gives hgoing _ _).mono fun window after' hwindow => ?_)
      obtain ⟨rfl, hgoing'⟩ := hwindow
      rw [hcursor]
      refine Outcome.bind (part_gives (by rw [hwide]; omega) ?_)
      rw [hpart]
      refine Outcome.bind ((copy_gives _ hinto hn (by omega) (by omega) hdrawn).mono fun out after'' hout => ?_)
      obtain ⟨rfl, hdraws⟩ := hout
      refine Outcome.bind (hgoing'.kept.keepWindow rfl fun windows hkept => ?_)
      refine ⟨⟨hkept, hgoing'.since⟩, @hread { p' with into := out } hnone (hdraws.mono fun i hi => ?_),
        by dsimp only; omega⟩
      omega

/-- Every turn goes on, so as many as there are bytes are enough. -/
theorem turns_gives
    (hinto : into.length = n) (hn : offset + n ≤ remote.bytes.length) :
    ∀ {fuel : Nat} {p : Progress} {cache : Cache}, Going file remote before cache → Reading remote into offset n p →
      offset + n ≤ p.cursor + fuel →
        Gives (file.turns remote offset (offset + n) fuel p cache)
          (fun p' after => Going file remote before after ∧ Reading remote into offset n p' ∧ p'.cursor = offset + n)
          (Gone file remote before) := by
  intro fuel
  induction fuel with
  | zero => exact fun h hp hfuel => ⟨h, hp, le_antisymm hp.high hfuel⟩
  | succ fuel ih =>
    intro p cache h hp hfuel
    unfold turns
    split
    · rename_i hlt
      refine Outcome.bind ((turn_gives hlen hmax hwindow h hinto hn hp hlt).mono fun p' after hp' => ?_)
      obtain ⟨hgoing, hreading, hgoes⟩ := hp'
      exact ih hgoing hreading (by omega)
    · rename_i hdone
      exact ⟨h, hp, Nat.le_antisymm hp.high (Nat.le_of_not_lt hdone)⟩

/-- A read of a lazy file gives the bytes of the range, or a fetch for it failed. -/
theorem lazy_readAt_gives
    (hn : offset + into.length ≤ remote.bytes.length) (h : Kept file remote cache) :
    Gives (file.readAt remote offset into cache)
      (fun out after => out = slice remote.bytes offset into.length ∧ Going file remote cache after)
      (Gone file remote cache) := by
  have hstart : Reading remote into offset into.length ⟨offset, none, into⟩ := by
    refine ⟨le_rfl, le_rfl, Nat.le_add_right _ _, Draws.refl.mono fun i hi => ?_⟩
    exact absurd hi (not_lt.mpr (Nat.le_add_right _ _))
  unfold readAt
  refine Outcome.bind ((turns_gives hlen hmax hwindow rfl hn ⟨h, since_refl⟩ hstart le_rfl).mono fun p after hp => ?_)
  obtain ⟨hgoing, hreading, hcursor⟩ := hp
  rw [← hcursor]
  refine Outcome.bind ((flush_gives hgoing rfl hn hreading.low hreading.run hreading.high hreading.drawn).mono
    fun p' after' hp' => ?_)
  obtain ⟨hgoing', -, -, hdrawn⟩ := hp'
  have hsize : (slice remote.bytes offset into.length).length = into.length := slice_length hn
  refine ⟨hdrawn.eq hsize.symm fun i hi => ?_, hgoing'⟩
  omega

end

end Windows

/-! ## Files in parts -/

section Parts

variable {file : Chunks} {remote : Remote} {cache : Cache} {parts : List (List UInt8)} {into : List UInt8} {offset n : Nat}
  {E : Cache → Prop}

theorem endsFrom_last : ∀ {parts : List (List UInt8)} {total : Nat},
    ((Chunks.endsFrom total parts).getLast?.getD total) = total + parts.flatten.length := by
  intro parts
  induction parts with
  | nil => intro total; rfl
  | cons bytes parts ih =>
    intro total
    rw [Chunks.endsFrom, getLast?_cons, Option.getD_some, ih, flatten_cons, length_append, add_assoc]

theorem new_len : (Chunks.new parts).len = parts.flatten.length := by
  have h : (Chunks.endsFrom 0 parts).getLast?.getD 0 = 0 + parts.flatten.length := endsFrom_last
  rw [zero_add] at h
  exact h

/-- The part that an offset is in. -/
structure Located (parts : List (List UInt8)) (index offset at' : Nat) (front : List (List UInt8)) (bytes : List UInt8)
    (back : List (List UInt8)) : Prop where
  split : parts = front ++ bytes :: back
  index : index = front.length
  place : front.flatten.length + at' = offset
  within : at' < bytes.length

theorem partitionPoint_ends : ∀ (parts : List (List UInt8)) (total : Nat), total ≤ offset →
    offset < total + parts.flatten.length →
      ∃ front bytes back, parts = front ++ bytes :: back ∧
        partitionPoint (fun stop => stop ≤ offset) (Chunks.endsFrom total parts) = front.length ∧
        total + front.flatten.length ≤ offset ∧ offset < total + front.flatten.length + bytes.length ∧
        (front ≠ [] → (Chunks.endsFrom total parts)[front.length - 1]? = some (total + front.flatten.length)) := by
  intro parts
  induction parts with
  | nil => exact fun _ h h' => absurd h' (not_lt.mpr h)
  | cons bytes parts ih =>
    intro total hlow hhigh
    rw [flatten_cons, length_append] at hhigh
    by_cases hpast : total + bytes.length ≤ offset
    · obtain ⟨front, found, back, rfl, hpoint, hle, hlt, hlast⟩ := ih _ hpast (by omega)
      refine ⟨bytes :: front, found, back, rfl, ?_, ?_, ?_, fun _ => ?_⟩
      · unfold partitionPoint at hpoint ⊢
        rw [Chunks.endsFrom, takeWhile_cons_of_pos (by rw [decide_eq_true_eq]; exact hpast), length_cons, hpoint,
          length_cons]
      · rw [flatten_cons, length_append]
        omega
      · rw [flatten_cons, length_append]
        omega
      · rw [Chunks.endsFrom, length_cons, Nat.add_sub_cancel, flatten_cons, length_append, ← add_assoc]
        cases front with
        | nil => rfl
        | cons first front =>
          rw [length_cons, getElem?_cons_succ]
          exact hlast (cons_ne_nil _ _)
    · refine ⟨[], bytes, parts, rfl, ?_, hlow, ?_, fun h => absurd rfl h⟩
      · unfold partitionPoint
        rw [Chunks.endsFrom, takeWhile_cons_of_neg (by rw [decide_eq_true_eq]; exact hpast)]
        rfl
      · rw [flatten_nil, length_nil]
        omega

theorem locate_gives {Q : Option (Nat × Nat) → Cache → Prop} (hlt : offset < parts.flatten.length)
    (hQ : ∀ index at' front bytes back, Located parts index offset at' front bytes back → Q (some (index, at')) cache) :
    Gives ((Chunks.new parts).locate offset cache) Q E := by
  obtain ⟨front, bytes, back, hsplit, hpoint, hle, hhigh, hlast⟩ :=
    partitionPoint_ends parts 0 (Nat.zero_le offset) (by omega)
  rw [zero_add] at hle hhigh hlast
  unfold Chunks.locate
  rw [if_neg (by rw [new_len]; omega)]
  rw [show (Chunks.new parts).ends = Chunks.endsFrom 0 parts from rfl, hpoint]
  split
  · rename_i hzero
    rw [length_eq_zero_iff.mp hzero, flatten_nil, length_nil] at hhigh
    refine hQ _ _ [] bytes back ⟨?_, hzero, ?_, by omega⟩
    · rw [hsplit, length_eq_zero_iff.mp hzero]
    · rw [flatten_nil, length_nil, zero_add]
  · rename_i hfront
    rw [hlast fun h => hfront (by rw [h]; rfl)]
    exact hQ _ _ front bytes back ⟨hsplit, rfl, by omega, by omega⟩

/-- The parts from one on are copied one after the other. -/
theorem copyParts_gives (hinto : into.length = n) (hn : offset + n ≤ remote.bytes.length) :
    ∀ (parts : List (List UInt8)) (front : List UInt8) {at' done : Nat} {out : List UInt8},
      remote.bytes = front ++ parts.flatten → (done < n → front.length + at' = offset + done) → done ≤ n →
      (∀ bytes ∈ parts.head?, at' ≤ bytes.length) →
      Draws (slice remote.bytes offset n) (fun i => offset + i < offset + done) into out →
        Gives (Chunks.copyParts parts at' done out cache)
          (fun out after => after = cache ∧ out = slice remote.bytes offset n) E := by
  have hsize : (slice remote.bytes offset n).length = n := slice_length hn
  intro parts
  induction parts with
  | nil =>
    intro front at' done out hbytes hplace hdone _ hdrawn
    have hout : out.length = n := by rw [hdrawn.length, hinto]
    have hlen := congrArg length hbytes
    rw [flatten_nil, append_nil] at hlen
    unfold Chunks.copyParts
    rw [if_neg fun hlt => by have := hplace (by omega); omega]
    refine ⟨rfl, hdrawn.eq (by rw [hinto, hsize]) fun i hi => ?_⟩
    have : ¬ done < n := fun hlt => by have := hplace hlt; omega
    omega
  | cons bytes parts ih =>
    intro front at' done out hbytes hplace hdone hat hdrawn
    have hout : out.length = n := by rw [hdrawn.length, hinto]
    unfold Chunks.copyParts
    split
    · rename_i hlt
      have hat := hat bytes rfl
      have hplace := hplace (by omega)
      have hstands : Stands remote.bytes front.length bytes :=
        ⟨front, parts.flatten, by rw [hbytes, flatten_cons, append_assoc], rfl⟩
      refine Outcome.bind (part_gives (by omega) ?_)
      rw [hstands.slice_within (by omega), hplace]
      have hcopy := copy_gives cache (E := E) (a := offset + done)
        (m := min (bytes.length - at') (out.length - done)) hinto hn (Nat.le_add_right _ _) (by omega) hdrawn
      rw [Nat.add_sub_cancel_left] at hcopy
      refine Outcome.bind (hcopy.mono fun out' after hout' => ?_)
      obtain ⟨rfl, hdraws⟩ := hout'
      refine ih (front ++ bytes) (by rw [hbytes, flatten_cons, append_assoc]) (fun hmore => ?_)
        (by omega) (fun _ _ => Nat.zero_le _) (hdraws.mono fun i hi => by omega)
      -- the part was copied to its end
      rw [length_append]
      omega
    · refine ⟨rfl, hdrawn.eq (by rw [hinto, hsize]) fun i hi => ?_⟩
      omega

end Parts

/-! ## Every call -/

/-- A file that is mounted in parts, or to be fetched. -/
inductive Mounts (remote : Remote) : Chunks → Prop where
  | parts (parts : List (List UInt8)) : parts.flatten = remote.bytes → Mounts remote (Chunks.new parts)
  | lazy (window keep : Nat) : 0 < window → Mounts remote (Chunks.lazyKeeping remote.bytes.length window keep)

/-- What is kept of a mounted file: of one in parts, nothing. -/
def KeptBy (remote : Remote) (file : Chunks) (cache : Cache) : Prop :=
  match file.lazy with
  | some lazy => Kept lazy remote cache
  | none => cache.windows = []

section Calls

variable {file : Chunks} {remote : Remote} {before cache : Cache} {into : List UInt8} {offset len : Nat}

/-- What a call that asks for a range gives. -/
def Gave (remote : Remote) (file : Chunks) (offset len : Nat) (before : Cache) (answer : Option (List UInt8))
    (after : Cache) : Prop :=
  KeptBy remote file after ∧ (∀ bytes ∈ answer, bytes = slice remote.bytes offset len) ∧
    (answer = none ↔ remote.bytes.length < offset + len ∨ Failed remote before after)

theorem not_failed_since (h : Since remote before cache) : ¬ Failed remote before cache :=
  fun ⟨i, hlow, hhigh, hfail⟩ => hfail (h.2 i hlow hhigh)

theorem gave_some (hkept : KeptBy remote file cache) (hin : offset + len ≤ remote.bytes.length)
    (hsince : Since remote before cache) :
    Gave remote file offset len before (some (slice remote.bytes offset len)) cache := by
  refine ⟨hkept, fun bytes hbytes => (Option.mem_some.mp hbytes).symm, nofun, fun h => ?_⟩
  rcases h with h | h
  · omega
  · exact absurd h (not_failed_since hsince)

theorem gave_none (hkept : KeptBy remote file cache) (hout : remote.bytes.length < offset + len) :
    Gave remote file offset len before none cache :=
  ⟨hkept, fun _ h => (nomatch h), fun _ => .inl hout, fun _ => rfl⟩

section

variable (h : Mounts remote file)
include h

theorem mounts_len : file.len = remote.bytes.length := by
  cases h with
  | parts parts hparts => rw [new_len, hparts]
  | lazy window keep _ => rfl

theorem inRange_iff (hmax : remote.bytes.length ≤ U64_MAX) :
    file.inRange offset len = true ↔ offset + len ≤ remote.bytes.length := by
  rw [Chunks.inRange, Bool.and_eq_true, decide_eq_true_eq, decide_eq_true_eq, mounts_len h]
  omega

theorem readAt_gives (hmax : remote.bytes.length ≤ U64_MAX) (hkept : KeptBy remote file cache) :
    Gives (file.readAt remote offset into cache) (Gave remote file offset into.length cache) (fun _ => False) := by
  unfold Chunks.readAt
  by_cases hin : offset + into.length ≤ remote.bytes.length
  · rw [(inRange_iff h hmax).mpr hin]
    simp only [Bool.not_true, Bool.false_eq_true, if_false]
    split
    · rename_i hempty
      rw [List.isEmpty_iff] at hempty
      have hgave : Gave remote file offset into.length cache (some (slice remote.bytes offset into.length)) cache :=
        gave_some hkept hin since_refl
      rw [hempty, length_nil, slice, take_zero] at hgave
      rw [hempty]
      exact hgave
    · rename_i hempty
      have hpos : 0 < into.length := length_pos_iff.mpr fun hnil => hempty (by rw [hnil]; rfl)
      cases h with
      | parts parts hparts =>
        refine Outcome.bind (locate_gives (by rw [hparts]; omega) fun index at' front bytes back hloc => ?_)
        dsimp only
        have hdrop : (Chunks.new parts).parts.drop index = bytes :: back := by
          rw [hloc.index]
          show parts.drop front.length = _
          rw [hloc.split, drop_left]
        rw [hdrop]
        refine Outcome.bind ((copyParts_gives rfl hin _ front.flatten ?_ (fun _ => hloc.place)
          (Nat.zero_le _) ?_ ?_).mono fun out after hout => ?_)
        · rw [← hparts, hloc.split, flatten_append]
        · intro first hfirst
          rw [← Option.some.inj hfirst]
          exact le_of_lt hloc.within
        · exact Draws.refl.mono fun i hi => by omega
        · obtain ⟨rfl, rfl⟩ := hout
          exact gave_some hkept hin since_refl
      | lazy window keep hwindow =>
        have hread := @lazy_readAt_gives ⟨remote.bytes.length, window, keep⟩ _ _ into _ rfl hmax hwindow hin hkept
        show Gives (ok (readAt ⟨remote.bytes.length, window, keep⟩ remote offset into) cache) _ _
        unfold ok
        cases hres : readAt ⟨remote.bytes.length, window, keep⟩ remote offset into cache with
        | ok out after =>
          rw [hres] at hread
          obtain ⟨rfl, hgoing⟩ := hread
          exact gave_some hgoing.kept hin hgoing.since
        | error failure after =>
          rw [hres] at hread
          -- a fetch that failed gives no bytes; a panic is ruled out
          cases failure with
          | error message => exact ⟨hread.1, fun _ h => (by cases h), fun _ => .inr hread.2, fun _ => rfl⟩
          | panic => exact hread
  · rw [Bool.eq_false_iff.mpr fun hrange => hin ((inRange_iff h hmax).mp hrange)]
    exact gave_none hkept (by omega)

theorem read_gives (hmax : remote.bytes.length ≤ U64_MAX) (hkept : KeptBy remote file cache) :
    Gives (file.read remote offset len cache) (Gave remote file offset len cache) (fun _ => False) := by
  unfold Chunks.read
  by_cases hin : offset + len ≤ remote.bytes.length
  · rw [(inRange_iff h hmax).mpr hin]
    have hread := @readAt_gives file remote cache (replicate len 0) offset h hmax hkept
    rw [length_replicate] at hread
    exact hread
  · rw [Bool.eq_false_iff.mpr fun hrange => hin ((inRange_iff h hmax).mp hrange)]
    exact gave_none hkept (by omega)

end

theorem insideOne_none (h : ¬ offset + len ≤ remote.bytes.length) (hmount : Mounts remote file)
    (hmax : remote.bytes.length ≤ U64_MAX) : file.insideOne offset len cache = .ok none cache := by
  unfold Chunks.insideOne
  rw [Bool.eq_false_iff.mpr fun hrange => h ((inRange_iff hmount hmax).mp hrange)]
  rfl

section

variable (h : Mounts remote file) (hmax : remote.bytes.length ≤ U64_MAX)
include h hmax

theorem slice_gives (hkept : KeptBy remote file cache) :
    Gives (file.slice remote offset len cache) (Gave remote file offset len cache) (fun _ => False) := by
  unfold Chunks.slice
  by_cases hin : offset + len ≤ remote.bytes.length
  · have hrange : file.inRange offset len = true := (inRange_iff h hmax).mpr hin
    refine Outcome.bind ?_
    unfold Chunks.insideOne
    rw [hrange]
    simp only [Bool.not_true, Bool.false_eq_true, if_false]
    split
    · rename_i hzero
      have hgave : Gave remote file offset len cache (some (slice remote.bytes offset len)) cache :=
        gave_some hkept hin since_refl
      rw [hzero, slice, take_zero] at hgave
      rw [hzero]
      exact hgave
    · rename_i hpos
      cases h with
      | lazy window keep hwindow => exact read_gives (.lazy window keep hwindow) hmax hkept
      | parts parts hparts =>
        refine Outcome.bind (locate_gives (by rw [hparts]; omega) fun index at' front bytes back hloc => ?_)
        have hpart : (Chunks.new parts).parts[index]? = some bytes := by
          rw [hloc.index]
          show parts[front.length]? = _
          rw [hloc.split, getElem?_append_right le_rfl, Nat.sub_self]
          rfl
        dsimp only
        rw [hpart]
        dsimp only
        by_cases hone : at' + len ≤ bytes.length
        · rw [if_pos hone]
          refine Outcome.pure ?_
          dsimp only
          rw [if_neg (by omega), hpart]
          refine Outcome.bind (part_gives (by omega) ?_)
          have hstands : Stands remote.bytes front.flatten.length bytes :=
            ⟨front.flatten, back.flatten, by rw [← hparts, hloc.split, flatten_append, flatten_cons,
              append_assoc], rfl⟩
          rw [Nat.add_sub_cancel_left, hstands.slice_within hone, hloc.place]
          exact gave_some hkept hin since_refl
        · rw [if_neg hone]
          refine Outcome.pure ?_
          exact read_gives (.parts parts hparts) hmax hkept
  · refine Outcome.bind ?_
    rw [insideOne_none hin h hmax]
    show Gives ((if file.inRange offset len then file.read remote offset len else return none) cache) _ _
    rw [Bool.eq_false_iff.mpr fun hrange => hin ((inRange_iff h hmax).mp hrange)]
    exact gave_none hkept (by omega)

/-- A call gives what it should, and keeps what is kept. -/
theorem perform_gives (hkept : KeptBy remote file cache)
    (call : Call) :
    Gives (call.perform file remote cache) (Gave remote file call.offset call.len cache) (fun _ => False) := by
  cases call with
  | read offset len => exact read_gives h hmax hkept
  | readAt offset into => exact readAt_gives h hmax hkept
  | slice offset len => exact slice_gives h hmax hkept

theorem performAll_gives :
    ∀ (calls : List Call) {cache : Cache}, KeptBy remote file cache →
      Gives (Call.performAll file remote calls cache) (fun _ after => KeptBy remote file after) (fun _ => False) := by
  intro calls
  induction calls with
  | nil => exact fun hkept => hkept
  | cons call calls ih =>
    exact fun hkept => Outcome.bind ((perform_gives h hmax hkept call).mono fun _ _ hgave => ih hgave.1)

end

end Calls

/-- What is kept of a lazy file holds the bytes of the file, each window once and no more than are to be kept. -/
def WindowsHold (remote : Remote) (file : Chunks) (cache : Cache) : Prop :=
  ∀ lazy ∈ file.lazy, (∀ w ∈ cache.windows, w.2 = slice remote.bytes w.1 (min (w.1 + lazy.window) lazy.len - w.1)) ∧
    (cache.windows.map Prod.fst).Nodup ∧ (cache.windows.filter fun w => w.1 < lazy.pinFrom).length ≤ lazy.keep

theorem windowsHold {remote : Remote} {file : Chunks} {cache : Cache} (h : Mounts remote file)
    (hmax : remote.bytes.length ≤ U64_MAX) (hkept : KeptBy remote file cache) : WindowsHold remote file cache := by
  intro lazy hlazy
  cases h with
  | parts parts hparts => cases hlazy
  | lazy window keep hwindow =>
    cases hlazy
    refine ⟨fun w hw => ?_, hkept.distinct, ?_⟩
    · -- a window does not end past the file, so that its end does not saturate
      have hstop : stop ⟨remote.bytes.length, window, keep⟩ w.1 = min (w.1 + window) remote.bytes.length := by
        unfold stop saturatingAdd
        dsimp only
        omega
      rw [← hstop]
      exact hkept.bytes w hw
    · rw [← countP_eq_length_filter]
      exact hkept.few

/-- **A mounted file reads like a flat one.** Whatever was called before, a call
gives the bytes of its range, or nothing, and that only if the range is not of
the file or a fetch made for this call failed. -/
theorem mounted_reads_flat (remote : Remote) (hlen : remote.bytes.length < 2 ^ 64) (file : Chunks)
    (hmount : Mounts remote file) (calls : List Call) (call : Call) :
    ∃ before after answer, Call.performAll file remote calls Cache.empty = .ok () before ∧
      call.perform file remote before = .ok answer after ∧
      (∀ bytes ∈ answer, bytes = slice remote.bytes call.offset call.len) ∧
      (answer = none ↔ remote.bytes.length < call.offset + call.len ∨
        ∃ i, before.requests ≤ i ∧ i < after.requests ∧ remote.failure i ≠ none) ∧
      WindowsHold remote file before ∧ WindowsHold remote file after := by
  have hmax : remote.bytes.length ≤ U64_MAX := by unfold U64_MAX; omega
  have hempty : KeptBy remote file Cache.empty := by
    cases hmount with
    | parts parts _ => rfl
    | lazy window keep _ => exact kept_empty
  obtain ⟨_, before, hbefore, hkept⟩ := (performAll_gives hmount hmax calls hempty).exists_ok
  obtain ⟨answer, after, hcall, hkept', hbytes, hnone⟩ := (perform_gives hmount hmax hkept call).exists_ok
  exact ⟨before, after, answer, hbefore, hcall, hbytes, hnone, windowsHold hmount hmax hkept,
    windowsHold hmount hmax hkept'⟩

/-- Six bytes in windows of two of which one is kept: the second fetch fails. -/
theorem mounted_reads_flat_six :
    let remote : Remote := ⟨[1, 2, 3, 4, 5, 6], fun i => if i = 1 then some "gone" else none⟩
    ∃ before after answer, Call.performAll (Chunks.lazyKeeping 6 2 1) remote [.read 1 1] Cache.empty = .ok () before ∧
      (Call.slice 0 4).perform (Chunks.lazyKeeping 6 2 1) remote before = .ok answer after ∧ answer = none ∧
      WindowsHold remote (Chunks.lazyKeeping 6 2 1) after := by
  obtain ⟨before, after, answer, hbefore, hcall, -, hnone, -, hhold⟩ :=
    mounted_reads_flat ⟨[1, 2, 3, 4, 5, 6], fun i => if i = 1 then some "gone" else none⟩ (by decide) _
      (.lazy 2 1 (by decide)) [.read 1 1] (.slice 0 4)
  refine ⟨before, after, answer, hbefore, hcall, ?_, hhold⟩
  cases hbefore
  cases hcall
  rfl

end Pie.Proof.Mounted
