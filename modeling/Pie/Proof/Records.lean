import Pie.Proof.Cbor
import Pie.Ztensor.Format

/-!
# Records as maps

A record is written as a map from the names of its fields to their values. Read
back, the fields come in the order of their encoded names, whatever order they
were written in; a reader that goes through them takes them one after another.
-/

namespace Pie.Proof.Records

open List Lib Ztensor Cbor
open Ztensor.Cbor (Value head)

variable {left length : Nat} {es : List (Value × Value)} {enc : List Pair}

abbrev Fields := List (Str × Option Value)

/-- The entries of the fields that have a value. -/
def entriesOf (r : Fields) : List (Value × Value) := r.filterMap fun f => f.2.map fun v => (.text f.1, v)

/-- A name as a key. -/
def key (name : Str) : List UInt8 := head 3 name.bytes.length ++ name.bytes

/-- Names in the order of their encodings. -/
def Ordered (names : List Str) : Prop := names.Pairwise fun a b => key a < key b

instance (names : List Str) : Decidable (Ordered names) := inferInstanceAs (Decidable (List.Pairwise _ _))

theorem mergeSort_eq {β : Type} {f : β → List UInt8} {es es' : List β} (hperm : es'.Perm es)
    (h : es'.Pairwise fun a b => f a < f b) : es.mergeSort (fun a b => decide (f a ≤ f b)) = es' := by
  have hmerge := mergeSort_perm es fun a b => decide (f a ≤ f b)
  have hnodup : (es'.map f).Nodup := by
    refine pairwise_map.mpr (h.imp fun hlt he => ?_)
    rw [he] at hlt
    exact List.lt_irrefl _ hlt
  have hsorted : (es.mergeSort fun a b => decide (f a ≤ f b)).Pairwise fun a b => f a ≤ f b := by
    refine (pairwise_mergeSort (fun a b c hab hbc => ?_) (fun a b => ?_) es).imp of_decide_eq_true
    · exact decide_eq_true (List.le_trans (of_decide_eq_true hab) (of_decide_eq_true hbc))
    · rw [Bool.or_eq_true, decide_eq_true_eq, decide_eq_true_eq]
      exact List.le_total _ _
  refine List.Perm.eq_of_pairwise (fun a b ha hb hab hba => ?_) hsorted (h.imp fun hlt => List.le_of_lt hlt)
    (hmerge.trans hperm.symm)
  exact inj_on_of_nodup_map hnodup ((hmerge.trans hperm.symm).mem_iff.mp ha) hb (List.le_antisymm hab hba)

/-! ## The order of the pairs -/

theorem sortKeys_eq {enc enc' : List Pair} (hperm : enc'.Perm enc) (h : enc'.Pairwise fun a b => a.1 < b.1) :
    sortKeys enc = enc' := mergeSort_eq hperm h

/-- **The pairs of a map are written in an order of their own**, whatever order they come in. -/
theorem encodeInto_perm : ∀ {left : Nat} {es es' : List (Value × Value)} {w : List UInt8}, es'.Perm es →
    encodeInto left (.map es) = .ok w → encodeInto left (.map es') = .ok w := by
  intro left es es' w hperm h
  cases left with
  | zero => cases h
  | succ left =>
    obtain ⟨enc, hall, hlt, rfl⟩ := encodeInto_map.mp h
    obtain ⟨enc', hall', hperm'⟩ := perm_comp_forall₂ hperm hall.flip
    have hsame : sortKeys enc' = sortKeys enc :=
      sortKeys_eq ((sortKeys_perm enc).trans hperm'.symm) hlt
    refine encodeInto_map.mpr ⟨enc', hall'.flip, ?_, ?_⟩
    · rw [hsame]
      exact hlt
    · rw [hsame, hperm.length_eq]

/-- A map is written as its pairs in order are. -/
theorem encodeInto_sorted {es es' : List (Value × Value)} (hperm : es'.Perm es)
    (hall : Forall₂ (Cbor.Written left) enc es') (hlt : enc.Pairwise fun a b => a.1 < b.1) :
    encodeInto (left + 1) (.map es) = .ok (head 5 es'.length ++ flat enc) := by
  refine encodeInto_perm hperm.symm (encodeInto_map.mpr ⟨enc, hall, ?_, ?_⟩)
  · rw [sortKeys_of_lt hlt]
    exact hlt
  · rw [sortKeys_of_lt hlt]

variable (fields : List (Str × Value × List UInt8))

/-- The bytes of a record whose fields, in the order of their names, are written so. -/
def recordBytes : List UInt8 :=
  head 5 fields.length ++ fields.flatMap fun f => key f.1 ++ f.2.2

theorem encodeInto_record
    (hperm : (fields.map fun f => (Value.text f.1, f.2.1)).Perm es) (hordered : Ordered (fields.map (·.1)))
    (hwritten : ∀ f ∈ fields, encodeInto (left + 1) f.2.1 = .ok f.2.2) :
    encodeInto (left + 2) (.map es) = .ok (recordBytes fields) := by
  have hall : Forall₂ (Cbor.Written (left + 1)) (fields.map fun f => (key f.1, f.2.2))
      (fields.map fun f => (Value.text f.1, f.2.1)) := by
    rw [forall₂_map_left_iff, forall₂_map_right_iff, forall₂_same]
    exact fun f hf => ⟨rfl, hwritten f hf⟩
  have hlt : (fields.map fun f => (key f.1, f.2.2)).Pairwise fun a b => a.1 < b.1 := by
    unfold Ordered at hordered
    rw [pairwise_map] at hordered ⊢
    exact hordered
  rw [encodeInto_sorted hperm hall hlt, length_map, flat, flatMap_map]
  rfl

/-- A record that is put together from its last name to its first. -/
theorem encodeInto_reversed
    (hreverse : es = (fields.map fun f => (Value.text f.1, f.2.1)).reverse) (hordered : Ordered (fields.map (·.1)))
    (hwritten : ∀ f ∈ fields, encodeInto (left + 1) f.2.1 = .ok f.2.2) :
    encodeInto (left + 2) (.map es) = .ok (recordBytes fields) := by
  refine encodeInto_record fields ?_ hordered hwritten
  rw [hreverse]
  exact (reverse_perm _).symm

/-- The same value, but for the order of the pairs of its maps. -/
inductive Alike : Value → Value → Prop
  | same (v : Value) : Alike v v
  | array {items items' : List Value} (h : List.Forall₂ Alike items items') : Alike (.array items) (.array items')
  | map {keys values values' : List Value} {es : List (Value × Value)} (h : List.Forall₂ Alike values values')
      (hperm : es.Perm (keys.zip values')) : Alike (.map (keys.zip values)) (.map es)

theorem Alike.encodeInto : ∀ {left : Nat} {v v' : Value} {w : List UInt8}, Alike v v' →
    encodeInto left v = .ok w → encodeInto left v' = .ok w := by
  intro left
  induction left with
  | zero => intro v v' w _ h; cases h
  | succ left ih =>
    intro v v' w halike h
    cases halike with
    | same => exact h
    | @array items items' hitems =>
      obtain ⟨enc, hall, rfl⟩ := encodeInto_array.mp h
      refine encodeInto_array.mpr ⟨enc, ?_, by rw [hitems.length_eq]⟩
      clear h
      induction hitems generalizing enc with
      | nil =>
        cases hall
        exact .nil
      | cons hitem _ ih' =>
        cases hall with
        | cons hw hall => exact .cons (ih hitem hw) (ih' _ hall)
    | @map keys values values' es hvalues hperm =>
      refine encodeInto_perm hperm ?_
      obtain ⟨enc, hall, hlt, rfl⟩ := encodeInto_map.mp h
      refine encodeInto_map.mpr ⟨enc, ?_, hlt, by rw [length_zip, length_zip, hvalues.length_eq]⟩
      clear h hperm hlt
      induction hvalues generalizing enc keys with
      | nil =>
        rw [zip_nil_right] at hall ⊢
        exact hall
      | cons hvalue _ ih' =>
        cases keys with
        | nil => exact hall
        | cons key keys =>
          rw [zip_cons_cons] at hall ⊢
          cases hall with
          | cons hw hall => exact .cons ⟨hw.1, ih hvalue hw.2⟩ (ih' _ hall)

/-! ## Objects with a hash -/

/-- The bytes of a hash. -/
def digestBytes (value : List UInt8) : List UInt8 :=
  recordBytes [(.lit "value", .bytes value, head 2 value.length ++ value),
    (.lit "algorithm", .text (.lit "xxh3"), key (.lit "xxh3"))]

theorem encodeInto_digest (value : List UInt8) :
    encodeInto (left + 2) (Digest.toValue (.new .xxh3 value)) = .ok (digestBytes value) := by
  have hordered : Ordered [.lit "value", .lit "algorithm"] := by decide
  exact encodeInto_reversed _ rfl hordered (forall_mem_cons.mpr ⟨rfl, forall_mem_singleton.mpr rfl⟩)

/-- The bytes of a number. -/
def numberBytes (n : Nat) : List UInt8 := head 0 (BitVec.ofNat 64 n).toNat

/-- A blob of the file, with its hash. -/
def hashedBlob (offset length : Nat) (value : List UInt8) : Blob :=
  ⟨none, offset, length, none, none, some (.new .xxh3 value), none⟩

def blobBytes (offset length : Nat) (value : List UInt8) : List UInt8 :=
  recordBytes [(.lit "digest", Digest.toValue (.new .xxh3 value), digestBytes value),
    (.lit "length", u64 length, numberBytes length), (.lit "offset", u64 offset, numberBytes offset)]

theorem encodeInto_blob {left offset length : Nat} {value : List UInt8} :
    encodeInto (left + 3) (hashedBlob offset length value).toValue = .ok (blobBytes offset length value) := by
  have hordered : Ordered [.lit "digest", .lit "length", .lit "offset"] := by decide
  exact encodeInto_reversed _ rfl hordered (forall_mem_cons.mpr
    ⟨encodeInto_digest value, forall_mem_cons.mpr ⟨rfl, forall_mem_singleton.mpr rfl⟩⟩)

/-- The bytes of an object of one dimension. -/
def objectBytes (length : Nat) (type : Str) (blob : Blob) (bytes : List UInt8) : List UInt8 :=
  recordBytes [(.lit "blob", blob.toValue, bytes), (.lit "type", .text type, key type),
    (.lit "shape", .array [u64 length], head 4 1 ++ numberBytes length)]

theorem encodeInto_object {t : Term} {blob : Blob} {bytes : List UInt8}
    (hblob : encodeInto (left + 3) blob.toValue = .ok bytes) :
    encodeInto (left + 4) (Object.toValue ⟨[length], some t, none, none, blob⟩) =
      .ok (objectBytes length t.display blob bytes) := by
  have hordered : Ordered [.lit "blob", .lit "type", .lit "shape"] := by decide
  refine encodeInto_reversed _ rfl hordered (forall_mem_cons.mpr
    ⟨hblob, forall_mem_cons.mpr ⟨rfl, forall_mem_singleton.mpr ?_⟩⟩)
  refine encodeInto_array.mpr ⟨[numberBytes length], .cons rfl .nil, ?_⟩
  rw [flatten_singleton]
  rfl

/-- The bytes of a manifest without shards or attributes. -/
def manifestBytes (fields : List (Str × Object × List UInt8)) : List UInt8 :=
  recordBytes [(.lit "objects", .map (fields.map fun f => (.text f.1, f.2.1.toValue)),
    recordBytes (fields.map fun f => (f.1, f.2.1.toValue, f.2.2)))]

theorem encode_manifest {m : Manifest} (fields : List (Str × Object × List UInt8)) (hattributes : m.attributes = none)
    (hshards : m.shards = ∅) (hobjects : m.objects.toList = fields.map fun f => (f.1, f.2.1))
    (hordered : Ordered (fields.map (·.1)))
    (hwritten : ∀ f ∈ fields, encodeInto 31 f.2.1.toValue = .ok f.2.2)
    (hlength : (manifestBytes fields).length ≤ ISIZE_MAX) :
    encode m.toValue = .ok (manifestBytes fields) := by
  have hobject : encodeInto 32 (.map (fields.map fun f => (.text f.1, f.2.1.toValue))) =
      .ok (recordBytes (fields.map fun f => (f.1, f.2.1.toValue, f.2.2))) := by
    refine encodeInto_record (fields.map fun f => (f.1, f.2.1.toValue, f.2.2)) ?_ ?_ ?_
    · rw [map_map]
      exact .refl _
    · rw [map_map]
      exact hordered
    · intro f hf
      obtain ⟨e, he, rfl⟩ := mem_map.mp hf
      exact hwritten e he
  have hvalue : m.toValue = .map [(text "objects", .map (fields.map fun f => (.text f.1, f.2.1.toValue)))] := by
    unfold Manifest.toValue
    dsimp only
    rw [hattributes, hshards, hobjects, if_pos Std.TreeMap.isEmpty_emptyc, map_map]
    rfl
  have hone : Ordered [.lit "objects"] := by decide
  refine encode_eq_ok.mpr ⟨?_, hlength⟩
  rw [hvalue]
  exact encodeInto_record _ (.refl _) hone (forall_mem_singleton.mpr hobject)

end Pie.Proof.Records
