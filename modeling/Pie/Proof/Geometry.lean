import Pie.Lib.Pointers
import Pie.Pipeline.Geometry
import Pie.Proof.Folding

/-!
# The lanes share out a pass

The tokens of a pass are cut at the entries of its indptr, and the rows it reads
out are put where the lane is that holds them. If the indptr starts at zero and
never decreases, each token and each read-out row is some lane's, once. Nothing
checks that.
-/

namespace Pie.Proof.Geometry

open List Pie.Fire Pie.Eta Lib Fallible ReqGeometry

variable {landing : Landing} {lane : Lane} {n : Nat} {place : Place} {start : BitVec 32}
  {o : Option (List (BitVec 32))}

/-! ## What a partition is -/

/-- The indptr starts at zero and never decreases. -/
def Splits (indptr : List (BitVec 32)) : Prop :=
  (∀ first ∈ indptr.head?, first = 0) ∧ indptr.Pairwise fun a b => a.toNat ≤ b.toNat

/-- The rows a lane of so many rows reads out. -/
def rowsRead (rows : Nat) : Readout → List Nat
  | .last => [rows - 1]
  | .rows read => read
  | .none => []

/-- What a lane has of the pass: the rows of its range. -/
structure Covers (g : ReqGeometry) (page : Nat) (range : Nat × Nat) (place : Place) (lane : Lane) (landing : Landing) :
    Prop where
  tokens : lane.tokens = stretch g.tokenIds range
  rows : landing.rows.toNat = lane.tokens.length
  held : lane.kv.held = landing.start.toNat
  slots : ∀ slots, g.slots = some slots →
    (stretch slots range).map BitVec.toNat = List.range' landing.start.toNat lane.tokens.length
  positions : ∀ positions, g.positions = some positions → lane.positions = stretch positions range ∨
    lane.positions = [] ∧ (stretch positions range).map BitVec.toNat = List.range' landing.start.toNat lane.tokens.length
  unstated : g.positions = none → lane.positions = []
  frozen : place.foldedExact = true → place.folded.toNat ≤ landing.start.toNat
  pages : lane.kv.pages = List.range (divCeil (landing.start.toNat + lane.tokens.length) (max page 1))
  readout : ∀ row ∈ rowsRead lane.tokens.length lane.readout, row < lane.tokens.length

/-- The lanes share out the pass; `read` are its read-out rows. -/
structure Partitions (g : ReqGeometry) (read : List (BitVec 32)) (places : List Place) (page : Nat) (lanes : List Lane)
    (landings : List Landing) : Prop where
  splits : Splits g.qoIndptr
  within : ∀ entry ∈ g.qoIndptr, entry.toNat ≤ g.tokenIds.length
  tokens : lanes.flatMap Lane.tokens = g.tokenIds
  count : lanes.length = (windows g.qoIndptr).length
  covers : ∀ (i : Nat) (lane : Lane), lanes[i]? = some lane → ∃ range place landing, (windows g.qoIndptr)[i]? = some range ∧
    places[i]? = some place ∧ landings[i]? = some landing ∧ Covers g page range place lane landing
  readout : ((lanes.zip (windows g.qoIndptr)).flatMap fun e =>
    (rowsRead e.1.tokens.length e.1.readout).map (· + e.2.1)).Perm (read.map BitVec.toNat)

/-! ## Windows -/

variable {indptr values : List (BitVec 32)} {i : Nat} {range : Nat × Nat}

theorem windows_length : (windows indptr).length = indptr.length - 1 := by
  cases indptr with
  | nil => rfl
  | cons first ends => exact cutsFrom_length.trans (length_map _)

section

variable (h : (windows indptr)[i]? = some range)
include h

theorem windows_getElem? :
    ∃ start stop, indptr[i]? = some start ∧ indptr[i + 1]? = some stop ∧ range = (start.toNat, stop.toNat) := by
  cases indptr with
  | nil => cases h
  | cons first ends =>
    rw [windows, cutsFrom_getElem?, ← map_cons, getElem?_map, getElem?_map] at h
    obtain ⟨start, hstart, h⟩ := Option.bind_eq_some_iff.mp h
    obtain ⟨stop, hstop, rfl⟩ := Option.map_eq_some_iff.mp h
    obtain ⟨start, hs, rfl⟩ := Option.map_eq_some_iff.mp hstart
    obtain ⟨stop, he, rfl⟩ := Option.map_eq_some_iff.mp hstop
    exact ⟨start, stop, hs, he, rfl⟩

theorem cutBy_eq : cutBy values indptr i = (slice values range.1 range.2).getD [] := by
  obtain ⟨start, stop, hs, he, rfl⟩ := windows_getElem? h
  rw [cutBy, hs, he]

theorem cutBy_stretch (hle : range.1 ≤ range.2) (hlen : range.2 ≤ values.length) :
    cutBy values indptr i = stretch values range := by
  rw [cutBy_eq h, slice, if_pos ⟨hle, hlen⟩]
  rfl

end

/-- How many rows the indptr spans. -/
def spanned (indptr : List (BitVec 32)) : Nat := (indptr.getLast?.getD 0).toNat

theorem splits_tiles (h : Splits indptr) : Tiles 0 (spanned indptr) (windows indptr) := by
  cases indptr with
  | nil => exact rfl
  | cons first ends =>
    obtain ⟨hfirst, hsort⟩ := h
    have hzero : first = 0 := hfirst first rfl
    have htiles := @tiles_cutsFrom (ends.map BitVec.toNat) first.toNat (by
      rw [← map_cons, pairwise_map]
      exact hsort)
    have hlast : (((first.toNat :: ends.map BitVec.toNat).getLast?).getD first.toNat) = spanned (first :: ends) := by
      rw [spanned, ← map_cons, getLast?_map, getLast?_eq_some_getLast (cons_ne_nil first ends)]
      rfl
    rw [hlast] at htiles
    rw [windows]
    have hnat : first.toNat = 0 := by rw [hzero]; rfl
    rw [hnat] at htiles ⊢
    exact htiles

theorem entry_le (h : Splits indptr) : ∀ entry ∈ indptr, entry.toNat ≤ spanned indptr := by
  intro entry hentry
  rw [spanned, getLast?_eq_some_getLast (ne_nil_of_mem hentry), Option.getD_some]
  exact h.2.rel_getLast_of_rel_getLast_getLast hentry le_rfl

/-! ## What is mapped -/

/-- The read-out rows: those of the port, or the last of each lane if it is not bound. -/
def Reads (F : F32Ops) (ports : PortEvaluations) (indptr read : List (BitVec 32)) : Prop :=
  (∃ value, portValue ports .readout = some (.ok value) ∧ read = valueAsU32 F value) ∨
    portValue ports .readout = none ∧ read = lastRows indptr

/-- What the mapping says of the geometry it gives. -/
structure Mapped (F : F32Ops) (ports : PortEvaluations) (g : ReqGeometry) (read : List (BitVec 32)) : Prop where
  tokens : g.tokenIds.length = spanned g.qoIndptr
  positions : ∀ positions, g.positions = some positions → positions.length = spanned g.qoIndptr
  slots : ∀ slots, g.slots = some slots → slots.length = spanned g.qoIndptr
  reads : Reads F ports g.qoIndptr read
  sampling : (g.samplingIndices, g.samplingIndptr) = (windows g.qoIndptr).foldl (bucket read) ([], [0])
  all : g.samplingIndices.length = read.length

variable {F : F32Ops} {ports : PortEvaluations} {port : Port}

theorem optionalU32_eq_ok (h : optionalU32 F ports port = .ok o) :
    (∃ value, portValue ports port = some (.ok value) ∧ o = some (valueAsU32 F value)) ∨
      portValue ports port = none ∧ o = none := by
  unfold optionalU32 at h
  split at h
  · rename_i value hvalue
    exact .inl ⟨value, hvalue, (Except.ok.inj h).symm⟩
  · cases h
  · rename_i hnone
    exact .inr ⟨hnone, (Except.ok.inj h).symm⟩

theorem requiredU32_eq_ok (h : requiredU32 F ports port = .ok values) :
    ∃ value, portValue ports port = some (.ok value) ∧ values = valueAsU32 F value := by
  obtain ⟨o, ho, h⟩ := bind_eq_ok.mp h
  rcases optionalU32_eq_ok ho with ⟨value, hvalue, rfl⟩ | ⟨-, rfl⟩
  · exact ⟨value, hvalue, (Except.ok.inj h).symm⟩
  · cases h

theorem spanRows_eq_ok {rows : List (BitVec 32)} (h : spanRows n port rows = .ok values) : values.length = n := by
  unfold spanRows at h
  split at h
  · rename_i hzero
    rw [← Except.ok.inj h, hzero]
    rfl
  · split at h
    · rename_i hlen
      rw [← Except.ok.inj h, hlen]
    · cases h

theorem spanRowsIf_eq_ok {rows o : Option (List (BitVec 32))} (h : spanRowsIf n port rows = .ok o) :
    ∀ values, o = some values → values.length = n := by
  cases rows with
  | none =>
    rw [← Except.ok.inj h]
    exact fun values h => nomatch h
  | some rows =>
    obtain ⟨values, hvalues, h⟩ := bind_eq_ok.mp h
    rw [← Except.ok.inj h]
    intro values' hv
    rw [← Option.some.inj hv]
    exact spanRows_eq_ok hvalues

variable {g : ReqGeometry}

theorem map_mapped {known : ChannelIndex → Option Value} {bound : BoundTrace} {device : PortMask}
    {evaluated : PortEvaluations} (h : mapGeometryEvaluatedWith F known bound device = .ok (g, evaluated)) :
    evalDescriptorPorts known F bound = .ok evaluated ∧
      (∃ value, portValue evaluated .embedIndptr = some (.ok value) ∧ g.qoIndptr = valueAsU32 F value) ∧
      ∃ read, Mapped F evaluated g read := by
  obtain ⟨ports, hports, h⟩ := bind_eq_ok.mp h
  have hports : evalDescriptorPorts known F bound = .ok ports := by
    unfold evaluatePorts at hports
    split at hports
    · rename_i ports' he
      rw [he, Except.ok.inj hports]
    · cases hports
    · cases hports
  obtain ⟨indptr, hindptr, h⟩ := bind_eq_ok.mp h
  obtain ⟨tokens₀, -, h⟩ := bind_eq_ok.mp h
  obtain ⟨positions₀, -, h⟩ := bind_eq_ok.mp h
  obtain ⟨fold, -, h⟩ := bind_eq_ok.mp h
  obtain ⟨slots₀, -, h⟩ := bind_eq_ok.mp h
  obtain ⟨kvLen, -, h⟩ := bind_eq_ok.mp h
  obtain ⟨tokens, htokens, h⟩ := bind_eq_ok.mp h
  obtain ⟨positions, hpositions, h⟩ := bind_eq_ok.mp h
  obtain ⟨slots, hslots, h⟩ := bind_eq_ok.mp h
  obtain ⟨-, -, h⟩ := bind_eq_ok.mp h
  obtain ⟨readout, hreadout, h⟩ := bind_eq_ok.mp h
  dsimp only at h
  split at h
  · cases h
  · rename_i hall
    cases h
    refine ⟨hports, requiredU32_eq_ok hindptr, readout.getD (lastRows indptr), ?_⟩
    refine ⟨spanRows_eq_ok htokens, spanRowsIf_eq_ok hpositions, spanRowsIf_eq_ok hslots, ?_, rfl, not_not.mp hall⟩
    rcases optionalU32_eq_ok hreadout with ⟨value, hvalue, rfl⟩ | ⟨hnone, rfl⟩
    · exact .inl ⟨value, hvalue, rfl⟩
    · exact .inr ⟨hnone, rfl⟩

/-! ## The read-out rows, lane by lane -/

variable {read : List (BitVec 32)}

/-- The read-out rows of each lane. -/
def parts (read indptr : List (BitVec 32)) : List (List (BitVec 32)) := (windows indptr).map (laneReadout read)

theorem foldl_bucket (read : List (BitVec 32)) : ∀ {cuts : List (Nat × Nat)} {indices ptrs : List (BitVec 32)},
    cuts.foldl (bucket read) (indices, ptrs) = (indices ++ (cuts.map (laneReadout read)).flatten,
      ptrs ++ (offsets indices.length ((cuts.map (laneReadout read)).map length)).map (BitVec.ofNat 32)) := by
  intro cuts
  induction cuts with
  | nil =>
    intro indices ptrs
    rw [map_nil, flatten_nil, append_nil]
    exact congrArg _ (append_nil ptrs).symm
  | cons cut cuts ih =>
    intro indices ptrs
    rw [foldl_cons, bucket, ih, length_append, append_assoc, append_assoc]
    rfl

section

variable {g : ReqGeometry} (hm : Mapped F ports g read)

include hm

theorem sampling_indices : g.samplingIndices = (parts read g.qoIndptr).flatten := by
  have h := congrArg Prod.fst hm.sampling
  rw [foldl_bucket] at h
  exact h

theorem sampling_indptr : g.samplingIndptr =
    (0 :: offsets 0 ((parts read g.qoIndptr).map length)).map (BitVec.ofNat 32) := by
  have h := congrArg Prod.snd hm.sampling
  rw [foldl_bucket] at h
  exact h

theorem parts_sum : ((parts read g.qoIndptr).map length).sum = read.length := by
  rw [← hm.all, sampling_indices hm, length_flatten]

/-- With fewer rows than there are numbers, the parts are found where they were written. -/
theorem windows_sampling (hread : read.length < 2 ^ 32) :
    windows g.samplingIndptr = cutsFrom 0 (offsets 0 ((parts read g.qoIndptr).map length)) := by
  have hsmall : ∀ e ∈ 0 :: offsets 0 ((parts read g.qoIndptr).map length), (BitVec.ofNat 32 e).toNat = e := by
    intro e he
    have hle := mem_offsets_le e he
    rw [parts_sum hm, zero_add] at hle
    rw [BitVec.toNat_ofNat, Nat.mod_eq_of_lt (hle.trans_lt hread)]
  rw [sampling_indptr hm, map_cons, windows, hsmall 0 mem_cons_self, map_map]
  refine congrArg (cutsFrom 0) ((map_congr_left fun e he => ?_).trans (map_id _))
  exact hsmall e (mem_cons_of_mem _ he)

theorem cutBy_sampling (hread : read.length < 2 ^ 32) (h : (windows g.qoIndptr)[i]? = some range) :
    cutBy g.samplingIndices g.samplingIndptr i = laneReadout read range := by
  have hpart : (parts read g.qoIndptr)[i]? = some (laneReadout read range) := by
    rw [parts, getElem?_map, h]
    rfl
  have hwindows := windows_sampling hm hread
  have hi : i < (windows g.samplingIndptr).length := by
    rw [hwindows, cutsFrom_length, offsets_length, length_map]
    exact (List.getElem?_eq_some_iff.mp hpart).1
  obtain ⟨c, hc⟩ : ∃ c, (windows g.samplingIndptr)[i]? = some c := ⟨_, getElem?_eq_getElem hi⟩
  have hc' := hc
  rw [hwindows] at hc'
  obtain ⟨-, hle, hstop⟩ := offsets_tiles.le_of_mem c (mem_of_getElem? hc')
  obtain ⟨part, hpart', hstretch⟩ := @stretch_offsets _ (parts read g.qoIndptr) [] i c hc'
  rw [parts_sum hm, zero_add] at hstop
  rw [cutBy_stretch hc hle (hm.all ▸ hstop), sampling_indices hm]
  rw [nil_append] at hstretch
  exact hstretch.trans (Option.some.inj (hpart'.symm.trans hpart))

theorem read_perm (hs : Splits g.qoIndptr) : ((windows g.qoIndptr).flatMap fun range =>
    (laneReadout read range).map fun index => index.toNat + range.1).Perm (read.map BitVec.toNat) := by
  have hshift : ∀ range ∈ windows g.qoIndptr, ((laneReadout read range).map fun index => index.toNat + range.1) =
      (read.filter fun index => decide (range.1 ≤ index.toNat ∧ index.toNat < range.2)).map BitVec.toNat := by
    intro range _
    rw [laneReadout, map_map]
    refine map_congr_left fun index hindex => ?_
    obtain ⟨hle, hlt⟩ := of_decide_eq_true (mem_filter.mp hindex).2
    rw [Function.comp_apply, BitVec.toNat_sub, BitVec.toNat_ofNat]
    omega
  rw [flatMap_congr hshift, ← map_flatMap]
  have hperm := @Tiles.perm_filter _ read BitVec.toNat _ _ _ (splits_tiles hs)
  -- as many as there are, so none is outside
  have hlen : (read.filter fun x => decide (0 ≤ x.toNat ∧ x.toNat < spanned g.qoIndptr)).length = read.length := by
    rw [← hperm.length_eq, ← parts_sum hm, parts, length_flatMap, map_map]
    refine congrArg sum (map_congr_left fun range _ => ?_)
    rw [Function.comp_apply, laneReadout, length_map]
  rw [filter_eq_self.mpr (length_filter_eq_length_iff.mp hlen)] at hperm
  exact hperm.map _

end

theorem laneReadout_lt : ∀ index ∈ laneReadout read range, index.toNat < range.2 - range.1 := by
  intro index hindex
  obtain ⟨stated, hstated, rfl⟩ := mem_map.mp hindex
  obtain ⟨hle, hlt⟩ := of_decide_eq_true (mem_filter.mp hstated).2
  rw [BitVec.toNat_sub, BitVec.toNat_ofNat]
  omega

/-! ## One lane -/

theorem consecutive_eq (h : consecutive start values = true) (hsmall : start.toNat + values.length ≤ 2 ^ 32) :
    values.map BitVec.toNat = range' start.toNat values.length := by
  refine ext_getElem (by rw [length_map, length_range']) fun k hk _ => ?_
  rw [length_map] at hk
  rw [getElem_map, getElem_range', one_mul]
  have hmem : (values[k], k) ∈ values.zipIdx := mem_zipIdx_iff_getElem?.mpr (getElem?_eq_getElem hk)
  have hvalue := eq_of_beq (all_eq_true.mp h _ hmem)
  rw [show values[k] = start + BitVec.ofNat 32 k from hvalue, BitVec.toNat_add, BitVec.toNat_ofNat]
  omega

/-- How the rows that a lane reads out are said is a matter of spelling. -/
theorem rowsRead_readoutOf {rows : BitVec 32}
    (h : ∀ index ∈ cutBy g.samplingIndices g.samplingIndptr i, index.toNat < rows.toNat) :
    rowsRead rows.toNat (g.readoutOf i rows) = (cutBy g.samplingIndices g.samplingIndptr i).map BitVec.toNat := by
  unfold readoutOf
  generalize cutBy g.samplingIndices g.samplingIndptr i = part at h
  split
  · rfl
  · rename_i only
    have honly := h only mem_cons_self
    split
    · rename_i hlast
      have hrows := rows.isLt
      have hnat := congrArg BitVec.toNat hlast
      rw [BitVec.toNat_add, show (1 : BitVec 32).toNat = 1 from rfl] at hnat
      rw [rowsRead, map_singleton]
      have : rows.toNat - 1 = only.toNat := by omega
      rw [this]
    · rfl
  · rfl

theorem startOf_eq_ok (h : g.startOf i place = .ok start) :
    (∃ slots, g.slots = some slots ∧ consecutive start (g.cut slots i) = true) ∨ g.slots = none ∧ place.tail = some start := by
  unfold startOf at h
  split at h
  · rename_i slots hslots
    split at h
    · cases h
    · rename_i first rest hcut
      split at h
      · rename_i hc
        refine .inl ⟨slots, hslots, ?_⟩
        rw [hcut, ← Except.ok.inj h]
        exact hc
      · cases h
  · rename_i hnone
    split at h
    · cases h
    · split at h
      · rename_i tail htail
        exact .inr ⟨hnone, htail.trans (congrArg some (Except.ok.inj h))⟩
      · cases h

theorem kvLenOf_eq_ok {stop len : BitVec 32} (h : g.kvLenOf i stop = .ok len) : len = stop := by
  unfold kvLenOf at h
  split at h
  · split at h
    · cases h
    · split at h
      · cases h
      · rename_i hlen
        exact (Except.ok.inj h).symm.trans (not_not.mp hlen)
  · exact (Except.ok.inj h).symm

theorem laneOf_covers {page : Nat}
    (hm : Mapped F ports g read) (hs : Splits g.qoIndptr) (hread : read.length < 2 ^ 32)
    (hrange : (windows g.qoIndptr)[i]? = some range) (h : g.laneOf (max page 1) (place, i) = .ok (lane, landing))
    (hsmall : landing.start.toNat + landing.rows.toNat < 2 ^ 32) :
    Covers g page range place lane landing ∧
      rowsRead lane.tokens.length lane.readout = (laneReadout read range).map BitVec.toNat := by
  obtain ⟨-, hle, hstop⟩ := (splits_tiles hs).le_of_mem range (mem_of_getElem? hrange)
  have hspan : spanned g.qoIndptr < 2 ^ 32 := BitVec.isLt _
  have hcut : ∀ values : List (BitVec 32), values.length = spanned g.qoIndptr → g.cut values i = stretch values range :=
    fun values hlen => cutBy_stretch hrange hle (hlen ▸ hstop)
  have hcutlen : ∀ values : List (BitVec 32), values.length = spanned g.qoIndptr →
      (stretch values range).length = range.2 - range.1 := fun values hlen => stretch_length (hlen ▸ hstop)
  have htokens := hcut g.tokenIds hm.tokens
  have hcount := hcutlen g.tokenIds hm.tokens
  unfold laneOf at h
  dsimp only at h
  obtain ⟨start, hstart, h⟩ := bind_eq_ok.mp h
  split at h
  · cases h
  · rename_i hfrozen
    obtain ⟨kvLen, hkv, h⟩ := bind_eq_ok.mp h
    obtain rfl := kvLenOf_eq_ok hkv
    cases h
    rw [htokens] at hsmall ⊢
    have hrows : (BitVec.ofNat 32 (min (stretch g.tokenIds range).length (2 ^ 32 - 1))).toNat =
        (stretch g.tokenIds range).length := by
      rw [BitVec.toNat_ofNat]
      omega
    dsimp only at hsmall ⊢
    have hpart := cutBy_sampling hm hread hrange
    have hbelow : ∀ index ∈ cutBy g.samplingIndices g.samplingIndptr i,
        index.toNat < (BitVec.ofNat 32 (min (stretch g.tokenIds range).length (2 ^ 32 - 1))).toNat := by
      rw [hpart, hrows, hcount]
      exact laneReadout_lt
    have hrowsRead := rowsRead_readoutOf hbelow
    rw [hrows, hpart] at hrowsRead
    rw [hrows] at hsmall
    refine ⟨⟨rfl, hrows, rfl, fun slots hslots => ?_, fun positions hpositions => ?_, fun hnone => ?_, fun hexact => ?_, ?_,
      fun row hrow => ?_⟩, hrowsRead⟩
    · -- where the rows land was checked
      have hlen := hm.slots slots hslots
      rcases startOf_eq_ok hstart with ⟨slots', hslots', hc⟩ | ⟨hnone, -⟩
      · cases hslots.symm.trans hslots'
        rw [hcut slots hlen] at hc
        rw [consecutive_eq hc (by rw [hcutlen slots hlen, ← hcount]; exact hsmall.le), hcutlen slots hlen, hcount]
      · rw [hslots] at hnone
        cases hnone
    · have hlen := hm.positions positions hpositions
      unfold positionsOf
      rw [hpositions]
      dsimp only
      rw [hcut positions hlen]
      split
      · rename_i hc
        refine .inr ⟨rfl, ?_⟩
        rw [consecutive_eq hc (by rw [hcutlen positions hlen, ← hcount]; exact hsmall.le), hcutlen positions hlen, hcount]
      · exact .inl rfl
    · unfold positionsOf
      rw [hnone]
    · rw [hexact, Bool.true_and, decide_eq_true_iff, Nat.not_lt] at hfrozen
      exact hfrozen
    · rw [BitVec.toNat_add, hrows, Nat.mod_eq_of_lt hsmall]
    · rw [hrowsRead] at hrow
      obtain ⟨index, hindex, rfl⟩ := mem_map.mp hrow
      rw [hcount]
      exact laneReadout_lt index hindex

section

variable {g : ReqGeometry} {places : List Place} {page : Nat} {lanes : List Lane} {landings : List Landing}

theorem lanes_eq_ok (h : g.lanes places page = .ok (lanes, landings)) : lanes.length = (windows g.qoIndptr).length ∧
    ∀ (i : Nat) (lane : Lane), lanes[i]? = some lane → ∃ place landing, places[i]? = some place ∧
      landings[i]? = some landing ∧ g.laneOf (max page 1) (place, i) = .ok (lane, landing) := by
  unfold ReqGeometry.lanes at h
  split at h
  · cases h
  · rename_i hcount
    obtain ⟨cuts, hcuts, h⟩ := bind_eq_ok.mp h
    cases h
    constructor
    · rw [length_map, mapM_length hcuts, length_zipIdx, not_not.mp hcount, ReqGeometry.count, windows_length]
    · intro i lane hlane
      obtain ⟨cut, hcut, rfl⟩ := Option.map_eq_some_iff.mp ((getElem?_map ..).symm.trans hlane)
      have hi : i < places.zipIdx.length := by
        rw [← mapM_length hcuts]
        exact (List.getElem?_eq_some_iff.mp hcut).1
      obtain ⟨cut', hcut', hround⟩ := forall₂_getElem? (mapM_eq_ok.mp hcuts) (getElem?_eq_getElem hi)
      obtain rfl := Option.some.inj (hcut'.symm.trans hcut)
      rw [getElem_zipIdx, zero_add] at hround
      have hp : i < places.length := by rwa [length_zipIdx] at hi
      refine ⟨places[i], cut'.2, getElem?_eq_getElem hp, ?_, hround⟩
      rw [getElem?_map, hcut]
      rfl

theorem partitions_of_splits (hm : Mapped F ports g read) (hl : g.lanes places page = .ok (lanes, landings))
    (hsmall : ∀ landing ∈ landings, landing.start.toNat + landing.rows.toNat < 2 ^ 32) (hs : Splits g.qoIndptr)
    (hread : read.length < 2 ^ 32) : Partitions g read places page lanes landings := by
  obtain ⟨hcount, hround⟩ := lanes_eq_ok hl
  have hlane : ∀ (i : Nat) (lane : Lane), lanes[i]? = some lane → ∃ range place landing,
      (windows g.qoIndptr)[i]? = some range ∧ places[i]? = some place ∧ landings[i]? = some landing ∧
        Covers g page range place lane landing ∧
          rowsRead lane.tokens.length lane.readout = (laneReadout read range).map BitVec.toNat := by
    intro i lane hlane
    obtain ⟨place, landing, hplace, hlanding, hround⟩ := hround i lane hlane
    have hi : i < (windows g.qoIndptr).length := hcount ▸ (List.getElem?_eq_some_iff.mp hlane).1
    have hrange := getElem?_eq_getElem hi
    exact ⟨_, place, landing, hrange, hplace, hlanding,
      laneOf_covers hm hs hread hrange hround (hsmall landing (mem_of_getElem? hlanding))⟩
  refine ⟨hs, fun entry hentry => hm.tokens ▸ entry_le hs entry hentry, ?_, hcount, fun i lane h => ?_, ?_⟩
  · have htokens : lanes.map Lane.tokens = (windows g.qoIndptr).map (stretch g.tokenIds) := by
      refine ext_getElem (by rw [length_map, length_map, hcount]) fun i hi hi' => ?_
      rw [length_map] at hi
      obtain ⟨range, _, _, hrange, -, -, hcovers, -⟩ := hlane i _ (getElem?_eq_getElem hi)
      rw [getElem_map, getElem_map, hcovers.tokens, (List.getElem?_eq_some_iff.mp hrange).2]
    rw [flatMap_def, htokens, ← flatMap_def, (splits_tiles hs).flatMap_stretch, ← hm.tokens, stretch_whole]
  · obtain ⟨range, place, landing, hrange, hplace, hlanding, hcovers, -⟩ := hlane i lane h
    exact ⟨range, place, landing, hrange, hplace, hlanding, hcovers⟩
  · have hrows : (lanes.zip (windows g.qoIndptr)).map (fun e =>
        (rowsRead e.1.tokens.length e.1.readout).map (· + e.2.1)) =
        (windows g.qoIndptr).map fun range => (laneReadout read range).map fun index => index.toNat + range.1 := by
      refine ext_getElem (by rw [length_map, length_map, length_zip, hcount, Nat.min_self]) fun i hi hi' => ?_
      rw [length_map, length_zip] at hi
      obtain ⟨range, -, -, hrange, -, -, -, hrows⟩ := hlane i _ (getElem?_eq_getElem (hi.trans_le (min_le_left ..)))
      rw [getElem_map, getElem_map, getElem_zip, hrows, map_map, (List.getElem?_eq_some_iff.mp hrange).2]
      rfl
    rw [flatMap_def, hrows, ← flatMap_def]
    exact read_perm hm hs

/-! ## Read-out rows past the numbers -/

/-- What is found of a part whose ends have wrapped. -/
def found (c : Nat × Nat) : Nat := if c.1 % 2 ^ 32 ≤ c.2 % 2 ^ 32 then c.2 % 2 ^ 32 - c.1 % 2 ^ 32 else 0

theorem found_le {a n : Nat} : found (a, a + n) ≤ n := by
  unfold found
  split
  · rename_i hle
    dsimp only at hle ⊢
    omega
  · exact Nat.zero_le n

/-- As much is found as was written only if no end has wrapped. -/
theorem sum_found : ∀ {ns : List Nat} {a : Nat}, ((cutsFrom a (offsets a ns)).map found).sum ≤ ns.sum ∧
    (a < 2 ^ 32 → ((cutsFrom a (offsets a ns)).map found).sum = ns.sum → a + ns.sum < 2 ^ 32) := by
  intro ns
  induction ns with
  | nil => exact fun {a} => ⟨le_refl 0, fun ha _ => ha⟩
  | cons n ns ih =>
    intro a
    obtain ⟨hle, heq⟩ := @ih (a + n)
    have hfirst := @found_le a n
    rw [offsets, cutsFrom, map_cons, sum_cons, sum_cons]
    refine ⟨add_le_add hfirst hle, fun ha hsum => ?_⟩
    rw [← add_assoc]
    have hfound : found (a, a + n) = n := by omega
    refine heq ?_ (by omega)
    unfold found at hfound
    dsimp only at hfound
    split at hfound <;> omega

theorem rowsRead_length (rows : BitVec 32) (n : Nat) :
    (rowsRead n (g.readoutOf i rows)).length = (cutBy g.samplingIndices g.samplingIndptr i).length := by
  unfold readoutOf
  split
  · rename_i hcut
    rw [hcut]
    rfl
  · rename_i hcut
    rw [hcut]
    split <;> rfl
  · exact length_map _

theorem laneOf_readout {e : Place × Nat} (h : g.laneOf page e = .ok (lane, landing)) :
    ∃ rows, lane.readout = g.readoutOf e.2 rows := by
  unfold laneOf at h
  dsimp only at h
  obtain ⟨start, -, h⟩ := bind_eq_ok.mp h
  split at h
  · cases h
  · obtain ⟨kvLen, -, h⟩ := bind_eq_ok.mp h
    cases h
    exact ⟨_, rfl⟩

theorem cutBy_found (hm : Mapped F ports g read) {c : Nat × Nat}
    (hc : (cutsFrom 0 (offsets 0 ((parts read g.qoIndptr).map length)))[i]? = some c) :
    (cutBy g.samplingIndices g.samplingIndptr i).length = found c := by
  have hwindow : (windows g.samplingIndptr)[i]? = some (c.1 % 2 ^ 32, c.2 % 2 ^ 32) := by
    have hmod : windows g.samplingIndptr = cutsFrom (0 % 2 ^ 32)
        ((offsets 0 ((parts read g.qoIndptr).map length)).map (· % 2 ^ 32)) := by
      rw [sampling_indptr hm, map_cons, windows, map_map]
      exact congrArg (cutsFrom 0) (map_congr_left fun e _ => BitVec.toNat_ofNat ..)
    rw [hmod, cutsFrom_map (· % 2 ^ 32), getElem?_map, hc]
    rfl
  have hstop := (offsets_tiles.le_of_mem c (mem_of_getElem? hc)).2.2
  rw [parts_sum hm, zero_add, ← hm.all] at hstop
  rw [cutBy_eq hwindow, slice, found]
  dsimp only
  by_cases hle : c.1 % 2 ^ 32 ≤ c.2 % 2 ^ 32
  · have hin : c.2 % 2 ^ 32 ≤ g.samplingIndices.length := (Nat.mod_le ..).trans hstop
    rw [if_pos ⟨hle, hin⟩, if_pos hle, Option.getD_some, stretch_length hin]
  · rw [if_neg fun h => hle h.1, if_neg hle]
    rfl

theorem read_lt_of_partitions (hm : Mapped F ports g read) (hl : g.lanes places page = .ok (lanes, landings))
    (hp : Partitions g read places page lanes landings) : read.length < 2 ^ 32 := by
  obtain ⟨hcount, hround⟩ := lanes_eq_ok hl
  have hlens : (lanes.zip (windows g.qoIndptr)).map (fun e =>
      ((rowsRead e.1.tokens.length e.1.readout).map (· + e.2.1)).length) =
      (cutsFrom 0 (offsets 0 ((parts read g.qoIndptr).map length))).map found := by
    refine ext_getElem ?_ fun i hi hi' => ?_
    · rw [length_map, length_map, length_zip, hcount, Nat.min_self, cutsFrom_length, offsets_length,
        length_map, parts, length_map]
    · rw [length_map, length_zip] at hi
      rw [length_map] at hi'
      obtain ⟨place, landing, -, -, hlane⟩ := hround i _ (getElem?_eq_getElem (hi.trans_le (min_le_left ..)))
      obtain ⟨rows, hreadout⟩ := laneOf_readout hlane
      rw [getElem_map, getElem_map, getElem_zip, length_map, hreadout, rowsRead_length]
      exact cutBy_found hm (getElem?_eq_getElem hi')
  have hlen := hp.readout.length_eq
  rw [length_flatMap, hlens, length_map, ← parts_sum hm] at hlen
  have hlt := sum_found.2 (Nat.two_pow_pos 32) hlen
  rwa [parts_sum hm, zero_add] at hlt

end

/-! ## The geometry -/

/-- **When the lanes share out a pass.** They do when the evaluated indptr starts at zero and never decreases, and only
then; nothing checks it. -/
theorem lanes_partition_iff (F : F32Ops) (known : ChannelIndex → Option Value) (bound : BoundTrace) (device : PortMask)
    (g : ReqGeometry) (evaluated : PortEvaluations)
    (hg : mapGeometryEvaluatedWith F known bound device = .ok (g, evaluated)) (places : List Place) (page : Nat)
    (lanes : List Lane) (landings : List Landing) (hl : g.lanes places page = .ok (lanes, landings))
    (hsmall : ∀ landing ∈ landings, landing.start.toNat + landing.rows.toNat < 2 ^ 32) :
    evalDescriptorPorts known F bound = .ok evaluated ∧
      ∃ indptr read, portValue evaluated .embedIndptr = some (.ok indptr) ∧ Reads F evaluated (valueAsU32 F indptr) read ∧
        (Partitions g read places page lanes landings ↔ Splits (valueAsU32 F indptr) ∧ read.length < 2 ^ 32) := by
  obtain ⟨hports, ⟨indptr, hindptr, heq⟩, read, hm⟩ := map_mapped hg
  refine ⟨hports, indptr, read, hindptr, heq ▸ hm.reads, ?_⟩
  rw [← heq]
  constructor
  · intro hp
    exact ⟨hp.splits, read_lt_of_partitions hm hl hp⟩
  · intro ⟨hs, hread⟩
    exact partitions_of_splits hm hl hsmall hs hread

/-- Two tokens for one lane, whose rows go from `first` to the second entry. -/
def twoTokens (first : UInt8) : TraceContainer where
  names := []
  channels := []
  ports := [⟨.embedTokens, .const .u32 ⟨[2], by decide⟩ [7, 0, 0, 0, 8, 0, 0, 0]⟩,
    ⟨.embedIndptr, .const .u32 ⟨[2], by decide⟩ [first, 0, 0, 0, 2, 0, 0, 0]⟩]
  stages := []
  externs := []

def twoTokensBound (first : UInt8) (hash : BitVec 64) : BoundTrace := ⟨twoTokens first, plainProfile, hash, [], [], []⟩

def twoTokensPorts (first : BitVec 32) : PortEvaluations :=
  [(.embedTokens, .ok (.u32 [7, 8])), (.embedIndptr, .ok (.u32 [first, 2]))]

def twoTokensGeometry (first : BitVec 32) (read : List (BitVec 32)) : ReqGeometry :=
  ⟨[7, 8], [first, 2], none, none, none, .none, read, [0, 1]⟩

def tokensLane (tokens : List (BitVec 32)) : Lane :=
  ⟨tokens, [], ⟨0, [0]⟩, none, none, false, false, false, false, none, [], .last, none, none, [], false, none⟩

set_option maxRecDepth 8000 in
theorem lanes_partition_iff_two : evalDescriptorPorts (fun _ => none) noFloats (twoTokensBound 0 0) = .ok (twoTokensPorts 0) ∧
    ∃ indptr read, portValue (twoTokensPorts 0) .embedIndptr = some (.ok indptr) ∧
      Reads noFloats (twoTokensPorts 0) (valueAsU32 noFloats indptr) read ∧
      (Partitions (twoTokensGeometry 0 [1]) read [⟨0, false, some 0, false⟩] 16 [tokensLane [7, 8]] [⟨0, 2⟩] ↔
        Splits (valueAsU32 noFloats indptr) ∧ read.length < 2 ^ 32) :=
  lanes_partition_iff noFloats (fun _ => none) (twoTokensBound 0 0) .NONE (twoTokensGeometry 0 [1]) (twoTokensPorts 0) rfl
    [⟨0, false, some 0, false⟩] 16 [tokensLane [7, 8]] [⟨0, 2⟩] rfl (by decide)

set_option maxRecDepth 8000 in
/-- An indptr that starts at one leaves the first token to no lane. -/
theorem first_token_is_lost : bind (twoTokens 1) plainProfile = .ok (twoTokensBound 1 12028074192456714755#64) ∧
    mapGeometryEvaluatedWith noFloats (fun _ => none) (twoTokensBound 1 12028074192456714755#64) .NONE =
      .ok (twoTokensGeometry 1 [0], twoTokensPorts 1) ∧
    (twoTokensGeometry 1 [0]).lanes [⟨0, false, some 0, false⟩] 16 = .ok ([tokensLane [8]], [⟨0, 1⟩]) ∧
    [tokensLane [8]].flatMap Lane.tokens ≠ (twoTokensGeometry 1 [0]).tokenIds :=
  ⟨rfl, rfl, rfl, by decide⟩

end Pie.Proof.Geometry
