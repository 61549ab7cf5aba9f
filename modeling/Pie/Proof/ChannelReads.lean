import Mathlib.Data.Nat.Bitwise
import Pie.Proof.ChannelWrites

/-!
# A reader's mirror

A cell decodes to the value that was published in it, with its booleans packed or
not. The host has copied the cells up to `copied_tail`, which lies between head
and tail; so it never falls behind by a whole ring, and what it has copied and not
yet returned is `produced`.
-/

namespace Pie.Proof.Channels

open List Pie.Pipeline Pie.Eta Lib.Rings Lib.Systems ChannelCell

variable {cellBytes copied i k out : Nat} {wire : Bytes}

/-! ## Booleans -/

/-- Bit `i` of a packed cell. -/
def bitAt (wire : Bytes) (i : Nat) : Bool := ((wire[i / 8]?).getD 0).toNat.testBit (i % 8)

theorem unpack_bit (x : UInt8) (hk : k < 8) : x >>> UInt8.ofNat k &&& 1 = if x.toNat.testBit k then 1 else 0 := by
  have hshift : (x >>> UInt8.ofNat k &&& 1).toNat = x.toNat >>> k % 2 := by
    rw [UInt8.toNat_and, UInt8.toNat_shiftRight, UInt8.toNat_ofNat', Nat.mod_eq_of_lt (by omega : k < 2 ^ 8),
      Nat.mod_eq_of_lt hk]
    exact Nat.and_one_is_mod _
  apply UInt8.toNat_inj.mp
  rw [hshift, Nat.testBit_eq_decide_div_mod_eq, Nat.shiftRight_eq_div_pow]
  rcases Nat.mod_two_eq_zero_or_one (x.toNat / 2 ^ k) with h | h
  · rw [h]; rfl
  · rw [h]; rfl

theorem set_bit (x : UInt8) (hk : k < 8) (hi : i < 8) :
    (x ||| 1 <<< UInt8.ofNat k).toNat.testBit i = (x.toNat.testBit i || decide (k = i)) := by
  rw [UInt8.toNat_or, Nat.testBit_or, UInt8.toNat_shiftLeft, UInt8.toNat_ofNat', Nat.mod_eq_of_lt (by omega : k < 2 ^ 8),
    Nat.mod_eq_of_lt hk]
  congr 1
  show (1 <<< k % 2 ^ 8).testBit i = _
  rw [Nat.testBit_mod_two_pow, Nat.one_shiftLeft, Nat.testBit_two_pow, decide_eq_true hi, Bool.true_and]

/-- What packing does for one boolean. -/
def packBit (wire : Bytes) (bit : UInt8 × Nat) : Bytes :=
  if bit.1 ≠ 0 then wire.modify (bit.2 / 8) (· ||| 1 <<< UInt8.ofNat (bit.2 % 8)) else wire

theorem bitAt_packBit {b : UInt8} {n i : Nat} (hn : n / 8 < wire.length) :
    bitAt (packBit wire (b, n)) i = (bitAt wire i || decide (b ≠ 0 ∧ n = i)) := by
  unfold packBit
  by_cases hb : b ≠ 0
  · rw [if_pos hb]
    dsimp only
    unfold bitAt
    by_cases hbyte : n / 8 = i / 8
    · rw [← hbyte, getElem?_modify_eq, getElem?_eq_getElem hn]
      have hiff : n % 8 = i % 8 ↔ n = i := by omega
      show ((wire[n / 8]) ||| _).toNat.testBit (i % 8) = (wire[n / 8].toNat.testBit (i % 8) || _)
      rw [set_bit _ (Nat.mod_lt _ (by omega)) (Nat.mod_lt _ (by omega))]
      simp only [hiff, hb, ne_eq, not_false_eq_true, true_and]
    · rw [getElem?_modify_ne _ _ hbyte]
      have hne : n ≠ i := fun h => hbyte (by rw [h])
      simp only [hne, and_false, decide_false, Bool.or_false]
  · rw [if_neg hb]
    simp only [hb, false_and, decide_false, Bool.or_false]

theorem length_packBit {bit : UInt8 × Nat} : (packBit wire bit).length = wire.length := by
  unfold packBit
  split
  · exact length_modify _ _ _
  · rfl

theorem bitAt_foldl : ∀ {native : Bytes} {k : Nat} {wire : Bytes}, native.length + k ≤ 8 * wire.length →
    bitAt ((native.zipIdx k).foldl packBit wire) i
        = (bitAt wire i || decide (k ≤ i ∧ ∃ b, native[i - k]? = some b ∧ b ≠ 0))
      ∧ ((native.zipIdx k).foldl packBit wire).length = wire.length := by
  intro native
  induction native with
  | nil => exact fun _ => ⟨by simp, rfl⟩
  | cons b native ih =>
    intro k wire hlen
    rw [length_cons] at hlen
    have hstep := @ih (k + 1) (packBit wire (b, k)) (by rw [length_packBit]; omega)
    rw [zipIdx_cons, foldl_cons]
    refine ⟨?_, hstep.2.trans length_packBit⟩
    rw [hstep.1, bitAt_packBit (by omega), Bool.or_assoc, ← Bool.decide_or]
    congr 2
    refine propext ⟨?_, ?_⟩
    · rintro (⟨hb, rfl⟩ | ⟨hle, hset⟩)
      · exact ⟨le_rfl, b, by rw [Nat.sub_self]; rfl, hb⟩
      · refine ⟨by omega, ?_⟩
        rwa [show i - k = i - (k + 1) + 1 by omega]
    · rintro ⟨hle, hset⟩
      rcases lt_or_eq_of_le hle with hlt | rfl
      · rw [show i - k = i - (k + 1) + 1 by omega] at hset
        exact .inr ⟨hlt, hset⟩
      · rw [Nat.sub_self] at hset
        obtain ⟨_, hb, hne⟩ := hset
        cases hb
        exact .inl ⟨hne, rfl⟩

/-- **Unpacking a packed cell gives the booleans back.** -/
theorem unpackBool_packBoolInto {native : Bytes} (h : ∀ b ∈ native, b = 0 ∨ b = 1)
    (hout : native.length ≤ 8 * out) : unpackBool (packBoolInto native out) native.length = native := by
  have hpack : packBoolInto native out = (native.zipIdx 0).foldl packBit (replicate out 0) := rfl
  have hzero : ∀ i, bitAt (replicate out 0) i = false := by
    intro i
    unfold bitAt
    rw [getElem?_replicate]
    split <;> exact Nat.zero_testBit _
  refine ext_getElem? fun i => ?_
  unfold unpackBool
  rw [getElem?_map]
  by_cases hi : i < native.length
  · have hbit := (@bitAt_foldl i native 0 (replicate out 0) (by rw [length_replicate]; omega)).1
    rw [← hpack, hzero, Bool.false_or, Nat.sub_zero, getElem?_eq_getElem hi] at hbit
    unfold bitAt at hbit
    rw [getElem?_range hi, getElem?_eq_getElem hi, Option.map_some, unpack_bit _ (Nat.mod_lt _ (by omega)), hbit]
    rcases h _ (getElem_mem hi) with hb | hb
    · simp [hb]
    · simp [hb]
  · rw [getElem?_eq_none (by rw [length_range]; omega), getElem?_eq_none (by omega)]
    rfl

/-! ## Cells -/

variable {cell cell' : ChannelCell} {ring ring' : HostRing} {endpoint : ChannelEndpoint} {native : Bytes}

/-- The size of a cell is that of a value, packed or not. -/
def Fits (cell : ChannelCell) (cellBytes : Nat) : Prop :=
  cellBytes = cell.nativeLen ∨ cell.dtype = .bool ∧ cellBytes = (cell.numel + 7) / 8

theorem length_packBoolInto : (packBoolInto native out).length = out := by
  have hlen : ∀ (bits : List (UInt8 × Nat)) (wire : Bytes), (bits.foldl packBit wire).length = wire.length := by
    intro bits
    induction bits with
    | nil => exact fun _ => rfl
    | cons bit bits ih => exact fun wire => (ih _).trans length_packBit
  exact (hlen _ _).trans length_replicate

theorem fromWire_mirrorWire (h : cell.Native native) (hf : Fits cell cellBytes) :
    fromWire cell.dtype cell.numel cell.nativeLen (cell.mirrorWire cellBytes native) = native := by
  unfold fromWire mirrorWire toWire
  by_cases hbool : cell.dtype = .bool
  · rw [if_pos hbool, if_pos hbool]
    by_cases hraw : cellBytes = cell.nativeLen
    · rw [if_pos hraw, if_pos h.1]
      have hsame : ∀ b ∈ native, (if b ≠ 0 then (1 : UInt8) else 0) = b := by
        intro b hb
        rcases h.2 hbool b hb with rfl | rfl <;> rfl
      exact (map_congr_left hsame).trans (map_id' _)
    · have hpacked : cellBytes = (cell.numel + 7) / 8 := (hf.resolve_left hraw).2
      have hnumel : cell.numel = native.length := by
        rw [h.1, nativeLen, hbool]
        exact (mul_one _).symm
      rw [if_neg hraw, if_neg (by rw [length_packBoolInto]; exact hraw), hnumel]
      exact unpackBool_packBoolInto (h.2 hbool) (by omega)
  · rw [if_neg hbool, if_neg hbool, ite_self]

/-- **What was published in a cell is what the host decodes.** -/
theorem decode_mirrorWire (h : cell.Native native) (hf : Fits cell cellBytes) :
    decodeReaderCell cell.dtype cell.numel cell.nativeLen (cell.mirrorWire cellBytes native) = .ok native := by
  unfold decodeReaderCell
  rw [fromWire_mirrorWire h hf]
  exact if_pos h.1

variable {decl : ChannelDecl} {w : World}

theorem copyCells_ok {seq : List Bytes} (hf : Fits cell cellBytes) {lo : Nat}
    (hw : Window ring.cells (seq.map (cell.mirrorWire cellBytes)) lo ring.tail) (hn : ∀ native ∈ seq, cell.Native native) :
    ∀ {n copied : Nat} {produced : List Bytes}, lo ≤ copied → copied + n ≤ ring.tail →
      copyCells ring n { cell with produced } ⟨cellBytes, ring.cells.length, copied⟩
        = (.ok (), { cell with
            produced := produced ++ (seq.drop copied).take n
            reader := some ⟨cellBytes, ring.cells.length, copied + n⟩ }) := by
  intro n
  induction n with
  | zero =>
    intro copied produced _ _
    unfold copyCells
    rw [take_zero, append_nil]
    rfl
  | succ n ih =>
    intro copied produced hlo hle
    have hlt : copied < seq.length := by
      have hwithin := hw.within
      rw [length_map] at hwithin
      omega
    have hcell : ring.cells[copied % ring.cells.length]? = some (cell.mirrorWire cellBytes seq[copied]) := by
      rw [hw.holds _ hlo (by omega), getElem?_map, getElem?_eq_getElem hlt]
      rfl
    unfold copyCells
    dsimp only
    rw [hcell]
    have hdecode : decodeReaderCell cell.dtype ({ cell with produced } : ChannelCell).numel
        ({ cell with produced } : ChannelCell).nativeLen (cell.mirrorWire cellBytes seq[copied]) = .ok seq[copied] :=
      decode_mirrorWire (hn _ (getElem_mem hlt)) hf
    rw [Option.getD_some, hdecode]
    have hrest := @ih (copied + 1) (produced ++ [seq[copied]]) (by omega) (by omega)
    rw [append_assoc, add_right_comm] at hrest
    rw [drop_eq_getElem_cons hlt, take_succ_cons]
    exact hrest

/-! ## The invariant -/

/-- The host looks into the ring, and has copied the cells up to `copied`. -/
structure Mirrored (endpoint : ChannelEndpoint) (w : World) (copied : Nat) : Prop where
  role : w.cell.role = some .reader
  reader : w.cell.reader = some ⟨endpoint.cellBytes, w.ring.cells.length, copied⟩
  fits : Fits w.cell endpoint.cellBytes
  lower : w.ring.head ≤ copied
  upper : copied ≤ w.ring.tail
  produced : w.cell.produced = (w.published.take copied).drop w.ring.head

structure Unmirrored (w : World) : Prop where
  endpoint : w.cell.endpoint = none
  reader : w.cell.reader = none
  produced : w.cell.produced = []
  head : w.ring.head = 0

/-- **What holds of a reader's channel in every state.** -/
structure ReaderInv (endpoint : ChannelEndpoint) (w : World) : Prop where
  role : w.cell.role = none ∨ w.cell.role = some .reader
  cells : w.ring.cells.length = endpoint.capacity.toNat + 1
  room : w.ring.tail ≤ w.ring.head + endpoint.capacity.toNat
  tail : w.ring.tail = w.published.length
  window : Window w.ring.cells (w.published.map (w.cell.mirrorWire endpoint.cellBytes)) w.ring.head w.ring.tail
  natives : ∀ native ∈ w.published, w.cell.Native native
  taken : w.taken = w.published.take w.ring.head
  clean : w.cell.poisoned ≠ none → w.ring.poison ≠ 0
  mirror : Unmirrored w ∨ ∃ copied, Mirrored endpoint w copied

theorem readerInv_init (h : w.Start decl endpoint) : ReaderInv endpoint w := by
  obtain ⟨globalId, shape, dtype, capacity, cells, hcells, -, rfl⟩ := h
  exact ⟨.inl rfl, hcells, Nat.zero_le _, rfl, .empty (Nat.zero_le _), nofun, rfl, absurd rfl, .inl ⟨rfl, rfl, rfl, rfl⟩⟩

/-- What a refresh copies, and what it finds wrong. -/
theorem refresh_mirrored (h : ReaderInv endpoint w) (hm : Mirrored endpoint w copied) :
    ∃ result poisoned copied', w.cell.refreshReaderMirrors w.ring = (result, { w.cell with
        poisoned
        produced := (w.published.take copied').drop w.ring.head
        reader := some ⟨endpoint.cellBytes, w.ring.cells.length, copied'⟩ })
      ∧ copied ≤ copied' ∧ copied' ≤ w.ring.tail ∧ (poisoned ≠ none → w.ring.poison ≠ 0)
      ∧ (w.ring.poison = 0 → w.ring.closed = 0 → result = .ok () ∧ poisoned = none ∧ copied' = w.ring.tail) := by
  unfold refreshReaderMirrors
  rw [hm.reader]
  dsimp only
  unfold look
  by_cases hpoison : w.ring.poison ≠ 0
  · refine ⟨.ok (), (w.cell.poison (epochReason w.ring.poison)).poisoned, copied, ?_, le_rfl, hm.upper,
      fun _ => hpoison, fun hp => absurd hp hpoison⟩
    rw [if_pos hpoison]
    dsimp only [copyCells]
    rw [if_neg (by rintro ⟨hc, -⟩; cases hc), ← hm.produced]
    unfold poison
    split <;> rfl
  rw [if_neg hpoison]
  have hclean : w.cell.poisoned = none := by
    by_contra hne
    exact hpoison (h.clean hne)
  by_cases hclosed : w.ring.closed ≠ 0
  · rw [if_pos hclosed]
    dsimp only [copyCells]
    refine ⟨if w.cell.produced = [] then .error .closed else .ok (), w.cell.poisoned, copied, ?_, le_rfl, hm.upper,
      h.clean, fun _ hc => absurd hc hclosed⟩
    rw [← hm.produced]
    by_cases hnil : w.cell.produced = []
    · rw [if_pos ⟨rfl, hnil, hclean⟩, if_pos hnil]
    · rw [if_neg (fun hc => hnil hc.2.1), if_neg hnil]
  · have hupper := hm.upper
    have hlower := hm.lower
    have hroom := h.room
    -- the host is never a whole ring behind
    rw [if_neg hclosed, if_neg (by dsimp only; rw [h.cells]; omega)]
    dsimp only
    have hcopy : copyCells w.ring (w.ring.tail - copied) w.cell
        ⟨endpoint.cellBytes, w.ring.cells.length, copied⟩ = _ :=
      copyCells_ok hm.fits h.window h.natives hm.lower (by omega)
    have hproduced : w.cell.produced ++ (w.published.drop copied).take (w.ring.tail - copied)
        = (w.published.take w.ring.tail).drop w.ring.head := by
      have hlen : w.ring.head ≤ (w.published.take copied).length := by
        rw [length_take, ← h.tail]
        omega
      rw [hm.produced, ← drop_append_of_le_length hlen, ← take_add, Nat.add_sub_cancel' hupper]
    rw [hcopy, hproduced, Nat.add_sub_cancel' hupper]
    refine ⟨.ok (), w.cell.poisoned, w.ring.tail, ?_, hupper, le_rfl, h.clean, fun _ _ => ⟨rfl, hclean, rfl⟩⟩
    dsimp only
    rw [if_neg (by rintro ⟨hc, -⟩; cases hc)]

theorem readable_reader {op : String} (hrole : cell.role = none ∨ cell.role = some .reader) :
    cell.readable op = match cell.poisoned with
      | some reason => .error (.poisoned reason)
      | none => (cell.produced.head?).elim (.error .empty) .ok := by
  unfold readable
  rcases hrole with hrole | hrole
  · rw [hrole]
    cases cell.poisoned <;> cases cell.produced.head? <;> rfl
  · rw [hrole]
    cases cell.poisoned <;> cases cell.produced.head? <;> rfl

theorem Unmirrored.refresh (hu : Unmirrored w) : w.cell.refreshReaderMirrors w.ring = (.ok (), w.cell) := by
  unfold refreshReaderMirrors
  rw [hu.reader]

theorem Unmirrored.readable (hu : Unmirrored w) (hrole : w.cell.role = none ∨ w.cell.role = some .reader) (op : String) :
    ∃ error, w.cell.readable op = .error error := by
  rw [readable_reader hrole, hu.produced]
  cases w.cell.poisoned <;> exact ⟨_, rfl⟩

section

variable (h : ReaderInv endpoint w)
include h

/-- The invariant holds once the mirror is refreshed. -/
theorem ReaderInv.refreshed (hm : Mirrored endpoint w copied) :
    ∃ result cell' copied', w.cell.refreshReaderMirrors w.ring = (result, cell')
      ∧ ReaderInv endpoint { w with cell := cell' } ∧ Mirrored endpoint { w with cell := cell' } copied' := by
  obtain ⟨result, poisoned, copied', hrefresh, hle, hupper, hclean, -⟩ := refresh_mirrored h hm
  have hm' : Mirrored endpoint { w with cell := { w.cell with
      poisoned
      produced := (w.published.take copied').drop w.ring.head
      reader := some ⟨endpoint.cellBytes, w.ring.cells.length, copied'⟩ } } copied' :=
    ⟨hm.role, rfl, hm.fits, le_trans hm.lower hle, hupper, rfl⟩
  exact ⟨result, _, copied', hrefresh, { h with clean := hclean, mirror := .inr ⟨_, hm'⟩ }, hm'⟩

/-- A value leaves the queue of what was copied, and the head goes past its cell. -/
theorem ReaderInv.pop {value : Bytes} (hm : Mirrored endpoint w copied)
    (hv : w.cell.produced.head? = some value) :
    ReaderInv endpoint { w with
      cell := { w.cell with produced := w.cell.produced.tail, frontOverride := none }
      ring := { w.ring with head := w.ring.head + 1 }
      taken := w.taken ++ [value] } := by
  rw [hm.produced, head?_drop] at hv
  have hlt : w.ring.head < copied := by
    have hlen := (List.getElem?_eq_some_iff.mp hv).1
    rw [length_take] at hlen
    omega
  rw [getElem?_take_of_lt hlt] at hv
  refine { h with room := ?_, window := ?_, taken := ?_, mirror := .inr ⟨copied, ?_⟩ }
  · show w.ring.tail ≤ w.ring.head + 1 + endpoint.capacity.toNat
    have hroom := h.room
    omega
  · exact h.window.advance (lt_of_lt_of_le hlt hm.upper)
  · show w.taken ++ [value] = w.published.take (w.ring.head + 1)
    rw [take_add_one, hv, h.taken]
    rfl
  · refine { hm with lower := hlt, produced := ?_ }
    show w.cell.produced.tail = (w.published.take copied).drop (w.ring.head + 1)
    rw [hm.produced, tail_drop]

/-- What a reader takes is the next that was published. -/
theorem ReaderInv.take : ReaderInv endpoint (w.host decl endpoint .take) := by
  rcases h.mirror with hu | ⟨copied, hm⟩
  · obtain ⟨error, herror⟩ := hu.readable h.role "take"
    unfold World.host ChannelCell.take
    rw [hu.refresh]
    dsimp only
    rw [herror]
    exact h
  · obtain ⟨result, cell', copied', hrefresh, hinv, hm'⟩ := h.refreshed hm
    unfold World.host ChannelCell.take
    rw [hrefresh]
    cases result with
    | error error => exact hinv
    | ok _ =>
      dsimp only
      cases hread : cell'.readable "take" with
      | error error => exact hinv
      | ok value =>
        rw [readable_reader (.inr hm'.role)] at hread
        have hv : cell'.produced.head? = some value := by
          cases hp : cell'.poisoned with
          | some reason => rw [hp] at hread; cases hread
          | none =>
            rw [hp] at hread
            cases hhead : cell'.produced.head? with
            | none => rw [hhead] at hread; cases hread
            | some other => rw [hhead] at hread; cases hread; rfl
        have hsome : cell'.reader.isSome = true := by rw [hm'.reader]; rfl
        dsimp only
        rw [if_pos hsome]
        exact hinv.pop hm' hv

theorem ReaderInv.read : ReaderInv endpoint (w.host decl endpoint .read) := by
  rcases h.mirror with hu | ⟨copied, hm⟩
  · unfold World.host ChannelCell.read
    rw [hu.refresh]
    exact h
  · obtain ⟨result, cell', copied', hrefresh, hinv, -⟩ := h.refreshed hm
    unfold World.host ChannelCell.read
    rw [hrefresh]
    cases result <;> exact hinv

/-! ## Runs -/

theorem ReaderInv.same {cell' : ChannelCell} (hshape : cell'.shape = w.cell.shape)
    (hdtype : cell'.dtype = w.cell.dtype) (hrole : cell'.role = some .reader ∨ cell'.role = w.cell.role)
    (hendpoint : cell'.endpoint = w.cell.endpoint) (hreader : cell'.reader = w.cell.reader)
    (hproduced : cell'.produced = w.cell.produced) (hpoisoned : cell'.poisoned = w.cell.poisoned) (puts : List Bytes)
    (skipped : Nat) : ReaderInv endpoint { w with cell := cell', puts, skipped } := by
  have hnumel : cell'.numel = w.cell.numel := by
    unfold numel
    rw [hshape]
  have hlen : cell'.nativeLen = w.cell.nativeLen := by
    unfold nativeLen
    rw [hnumel, hdtype]
  have hwire : cell'.mirrorWire = w.cell.mirrorWire := by
    funext cellBytes native
    unfold mirrorWire
    rw [hlen, hdtype]
  refine ⟨?_, h.cells, h.room, h.tail, by rw [hwire]; exact h.window, fun native hn => ?_, h.taken, ?_, ?_⟩
  · rcases hrole with hrole | hrole
    · exact .inr hrole
    · exact h.role.imp hrole.trans hrole.trans
  · unfold Native
    rw [hlen, hdtype]
    exact h.natives native hn
  · rw [hpoisoned]
    exact h.clean
  · rcases h.mirror with hu | ⟨copied, hm⟩
    · exact .inl ⟨hendpoint.trans hu.endpoint, hreader.trans hu.reader, hproduced.trans hu.produced, hu.head⟩
    · refine .inr ⟨copied, ⟨?_, hreader.trans hm.reader, ?_, hm.lower, hm.upper, hproduced.trans hm.produced⟩⟩
      · rcases hrole with hrole | hrole
        · exact hrole
        · exact hrole.trans hm.role
      · unfold Fits
        rw [hlen, hnumel, hdtype]
        exact hm.fits

end

theorem attachReaderMirror_ok (h : cell.attachReaderMirror endpoint = .ok cell') :
    cell.reader = none ∧ Fits cell endpoint.cellBytes
      ∧ cell' = { cell with reader := some ⟨endpoint.cellBytes, endpoint.capacity.toNat + 1, 0⟩ } := by
  unfold attachReaderMirror at h
  split at h
  · cases h
  split at h
  · cases h
  split at h
  · cases h
  split at h
  · cases h
  rename_i hnone hfits
  refine ⟨Option.not_isSome_iff_eq_none.mp hnone, ?_, (Except.ok.inj h).symm⟩
  by_contra hnot
  exact hfits ⟨fun hc => hnot (.inl hc), fun hc => hnot (.inr hc)⟩

section

variable (h : ReaderInv endpoint w)
include h

theorem ReaderInv.attachEndpoint (hrole : w.cell.role ≠ none) :
    ReaderInv endpoint (w.host decl endpoint .attachEndpoint) := by
  show ReaderInv endpoint { w with
    cell := (w.cell.attachEndpoint w.ring endpoint).2.1, ring := (w.cell.attachEndpoint w.ring endpoint).2.2 }
  unfold ChannelCell.attachEndpoint
  split
  · exact h
  split
  · exact h
  rename_i hnone
  have hreader : w.cell.role = some .reader := h.role.resolve_left hrole
  rw [if_pos hreader]
  cases ha : w.cell.attachReaderMirror endpoint with
  | error error => exact h
  | ok cell' =>
    obtain ⟨hnew, hfits, rfl⟩ := attachReaderMirror_ok ha
    have hu : Unmirrored w := by
      rcases h.mirror with hu | ⟨copied, hm⟩
      · exact hu
      · rw [hm.reader] at hnew
        cases hnew
    dsimp only
    rw [if_neg (by rw [hreader]; simp)]
    refine { h with mirror := .inr ⟨0, hreader, ?_, hfits, ?_, Nat.zero_le _, ?_⟩ }
    · show some _ = some _
      rw [h.cells]
    · exact le_of_eq hu.head
    · show w.cell.produced = (w.published.take 0).drop w.ring.head
      rw [hu.produced, take_zero, drop_nil]

theorem ReaderInv.put {cell' : ChannelCell} {ring' : HostRing} {native : Bytes}
    (hput : w.cell.putRef w.ring native = .ok (cell', ring')) :
    ReaderInv endpoint { w with cell := cell', ring := ring', puts := w.puts ++ [native] } := by
  obtain ⟨-, ⟨e, hdirect, -⟩ | ⟨-, -, rfl, rfl⟩⟩ := putRef_ok hput
  · -- only a writer's value goes straight to the ring
    unfold directRing at hdirect
    split at hdirect
    · rename_i hc
      rcases h.role with hrole | hrole <;> (rw [hrole] at hc; cases hc.1)
    · cases hdirect
  · refine h.same ?_ ?_ (.inr ?_) ?_ ?_ ?_ ?_ _ _ <;> rfl

theorem ReaderInv.flush : ReaderInv endpoint w.flush := by
  have hsame : w.cell.flushWriterStaging w.ring = (.ok (), w.cell, w.ring) := by
    refine if_pos (.inl ?_)
    rcases h.role with hrole | hrole <;> (rw [hrole]; nofun)
  unfold World.flush
  rw [hsame]
  exact h

theorem ReaderInv.commit : ReaderInv endpoint w.commit := by
  have hcommit : w.cell.commitSeed w.ring
      = ({ w.cell with staged := w.cell.staged.tail, seedTaken := true }, w.ring) := by
    unfold commitSeed
    split
    · rfl
    · refine if_neg fun hc => ?_
      rcases h.role with hrole | hrole <;> (rw [hrole] at hc; cases hc.1)
  unfold World.commit
  rw [hcommit]
  refine h.same ?_ ?_ (.inr ?_) ?_ ?_ ?_ ?_ _ _ <;> rfl

theorem ReaderInv.publish {native : Bytes}
    (hroom : w.ring.tail - w.ring.head < endpoint.capacity.toNat) (hn : w.cell.Native native) :
    ReaderInv endpoint (w.publish endpoint native) := by
  have hle := h.window.le
  have hlast : ((w.published ++ [native]).map (w.cell.mirrorWire endpoint.cellBytes))[w.ring.tail]?
      = some (w.cell.mirrorWire endpoint.cellBytes native) := by
    rw [getElem?_map, h.tail, getElem?_concat_length]
    rfl
  have hwindow := (h.window.append [w.cell.mirrorWire endpoint.cellBytes native])
  rw [← map_singleton, ← map_append] at hwindow
  have hnext := hwindow.write (by rw [h.cells]; omega) hlast
  rw [h.cells] at hnext
  have hhead : w.ring.head ≤ w.published.length := h.tail ▸ hle
  refine ⟨h.role, ?_, ?_, ?_, hnext, fun other ho => ?_, ?_, h.clean, ?_⟩
  · exact length_set.trans h.cells
  · show w.ring.tail + 1 ≤ w.ring.head + endpoint.capacity.toNat
    omega
  · show w.ring.tail + 1 = (w.published ++ [native]).length
    rw [length_append, h.tail]
    rfl
  · rcases mem_append.mp ho with ho | ho
    · exact h.natives other ho
    · rw [mem_singleton.mp ho]
      exact hn
  · show w.taken = (w.published ++ [native]).take w.ring.head
    rw [take_append_of_le_length hhead]
    exact h.taken
  · rcases h.mirror with hu | ⟨copied, hm⟩
    · exact .inl { hu with }
    · refine .inr ⟨copied, hm.role, ?_, hm.fits, hm.lower, Nat.le_succ_of_le hm.upper, ?_⟩
      · exact hm.reader.trans (by rw [show (w.publish endpoint native).ring.cells.length = _ from length_set])
      · show w.cell.produced = ((w.published ++ [native]).take copied).drop w.ring.head
        have hcopied : copied ≤ w.published.length := h.tail ▸ hm.upper
        rw [take_append_of_le_length hcopied]
        exact hm.produced

theorem ReaderInv.words {poison closed : Nat} (hpoison : w.ring.poison ≠ 0 → poison ≠ 0) :
    ReaderInv endpoint { w with ring := { w.ring with poison, closed } } := by
  refine { h with clean := fun hp => hpoison (h.clean hp), mirror := ?_ }
  rcases h.mirror with hu | ⟨copied, hm⟩
  · exact .inl { hu with }
  · exact .inr ⟨copied, { hm with }⟩

theorem readerInv_host (hrole : decl.hostRole = .reader) {call : HostCall}
    (ho : w.Orderly endpoint call) : ReaderInv endpoint (w.host decl endpoint call) := by
  cases call with
  | attach instanceId =>
    unfold World.host
    dsimp only
    cases ha : w.cell.attach w.ring instanceId decl none with
    | error error => exact h
    | ok cell' =>
      obtain ⟨-, hcell⟩ := attach_ok ha (by rw [hrole]; exact HostRole.noConfusion)
      refine h.same ?_ ?_ (.inl ?_) ?_ ?_ ?_ ?_ _ _
      all_goals rw [hcell]
      exact congrArg some hrole
  | detach instanceId => refine h.same ?_ ?_ (.inr ?_) ?_ ?_ ?_ ?_ _ _ <;> rfl
  | attachEndpoint => exact h.attachEndpoint ho.1
  | put native =>
    unfold World.host
    dsimp only
    cases hput : w.cell.putRef w.ring native with
    | error error => exact h
    | ok next => exact h.put hput
  | commitSeed => exact ho.elim
  | flush => exact h.flush
  | commitAndFlush => exact h.commit.flush
  | take => exact h.take
  | read => exact h.read

end

theorem readerInv_step {w' : World} (hrole : decl.hostRole = .reader) (h : ReaderInv endpoint w)
    (hs : World.Step decl endpoint (World.Orderly endpoint) w w') : ReaderInv endpoint w' := by
  cases hs with
  | host ho => exact readerInv_host h hrole ho
  | placeSeed hwriter => rcases h.role with hr | hr <;> (rw [hr] at hwriter; cases hwriter)
  | consume hwriter => rw [hrole] at hwriter; cases hwriter
  | publish _ hroom hnative => exact h.publish hroom hnative
  | poison hp => exact h.words fun _ => hp
  | close _ => exact h.words id

theorem readerInv_runs (hrole : decl.hostRole = .reader) (h : World.Runs decl endpoint (World.Orderly endpoint) w) :
    ReaderInv endpoint w :=
  h.invariant (fun _ => readerInv_init) fun _ _ _ hi hs => readerInv_step hrole hi hs

end Pie.Proof.Channels
