import Pie.Proof.Images
import Pie.Proof.Sinks
import Pie.Ztensor.Given

/-!
# What a builder gives

An object that is built with its bytes, with its planes or with a length is the
one that was described, its blob as long as its content. A canonical writer
builds no others.
-/

namespace Pie.Proof.Building

open List Lib Lib.Words Lib.Effects Ztensor Planes Images Writing Shelves Fallible
open Cbor (Value)

variable {env : Env} {w : Writer} {name : Str} {b : ObjectBuilder} {object : Object} {payload : Payload}

/-- The bytes are the file's own, as they are. -/
def Own (b : ObjectBuilder) : Prop :=
  b.encoding = none ∧ match b.payload with
    | .bytes _ => True
    | .planes _ => True
    | .length _ => True
    | _ => False

theorem builderAttributes_eq_ok {bad : Message → Result (List (Value × Value))} {pairs : List (Value × Value)}
    (hbad : ∀ m a, bad m ≠ .ok a) (h : Writer.builderAttributes bad b = .ok pairs) : pairs = b.givenPairs := by
  unfold Writer.builderAttributes at h
  unfold ObjectBuilder.givenPairs
  split at h
  · rename_i hnone
    rw [hnone]
    exact (Except.ok.inj h).symm
  · rename_i attributes hsome
    rw [hsome]
    split at h
    · exact absurd h (hbad _ _)
    · split at h
      · exact (Except.ok.inj h).symm
      · exact absurd h (hbad _ _)

/-- What a program that builds an object says when it refuses. -/
def refused (name : Str) {α : Type} (detail : Message) : Result α :=
  Result.invalidInput (.lit "object " :: .debug name.bytes :: .lit ": " :: detail)

theorem refused_ne_ok (name : Str) {α : Type} (m : Message) (a : α) : refused name m ≠ .ok a := nofun

theorem build_eq_ok (h : Writer.build env w name b = .ok (object, payload)) :
    (b.payload = .linked object ∧ Writer.validateExternal w.manifest object.blob = .ok ⟨⟩) ∨
      (Writer.checkNewObject env w name b.shape = .ok ⟨⟩ ∧ ¬ (b.encoding.isSome ∧ w.canonical) ∧ ∃ blob,
        Writer.buildBlob env w (refused name) b = .ok (blob, payload) ∧ object = (b.given name []).object blob ∧
          Writer.validateObject env name object = .ok ⟨⟩) := by
  unfold Writer.build at h
  extract_lets bad at h
  split at h
  · cases h
  · split at h
    · rename_i linked hpayload
      obtain ⟨_, -, h⟩ := bind_eq_ok.mp h
      obtain ⟨_, hexternal, h⟩ := bind_eq_ok.mp h
      obtain ⟨_, -, h⟩ := bind_eq_ok.mp h
      cases h
      exact .inl ⟨hpayload, hexternal⟩
    · obtain ⟨_, hfresh, h⟩ := bind_eq_ok.mp h
      obtain ⟨pairs, hpairs, h⟩ := bind_eq_ok.mp h
      obtain rfl := builderAttributes_eq_ok (refused_ne_ok name) hpairs
      extract_lets attributes build check at h
      have hchecked : check () = .ok (object, payload) := by
        split at h
        · split at h
          · exact h
          · cases h
        · exact h
      obtain ⟨hencoding, h⟩ := check_eq_ok.mp hchecked
      obtain ⟨⟨blob, payload'⟩, hblob, h⟩ := bind_eq_ok.mp h
      obtain ⟨_, hvalid, h⟩ := bind_eq_ok.mp h
      cases h
      exact .inr ⟨hfresh, hencoding, blob, hblob, rfl, hvalid⟩

/-! ## Planes -/

/-- Each piece is as long as its plane. -/
def Fit (ps : List Plane) (pieces : List (List UInt8)) : Prop := List.Forall₂ (fun p piece => piece.length = p.len) ps pieces

theorem checkPlanes_fit {bad : Message → Result Unit} (hbad : ∀ m a, bad m ≠ .ok a) : ∀ {ps : List Plane}
    {pieces : List (List UInt8)}, ps.length = pieces.length → Writer.checkPlanes bad ps pieces = .ok ⟨⟩ → Fit ps pieces := by
  intro ps
  induction ps with
  | nil =>
    intro pieces hlen _
    rw [length_eq_zero_iff.mp hlen.symm]
    exact .nil
  | cons p ps ih =>
    intro pieces hlen h
    cases pieces with
    | nil => cases hlen
    | cons piece pieces =>
      unfold Writer.checkPlanes at h
      split at h
      · exact absurd h (hbad _ _)
      · rename_i hp
        exact .cons (not_not.mp hp) (ih (Nat.succ.inj hlen) h)

theorem planesContent_length : ∀ {ps : List Plane} {pieces : List (List UInt8)} {cursor : Nat},
    Laid (roundUp cursor PLANE_ALIGN) ps → Fit ps pieces →
    cursor + (planesContent cursor pieces).length = if ps = [] then cursor else finish ps := by
  intro ps
  induction ps with
  | nil =>
    intro pieces cursor _ hfit
    cases hfit
    rfl
  | cons p ps ih =>
    intro pieces cursor hlaid hfit
    obtain ⟨hoffset, -, hrest⟩ := hlaid
    rw [if_neg (cons_ne_nil _ _)]
    cases hfit with
    | @cons _ piece _ pieces hlen hfit =>
      have hround : cursor ≤ roundUp cursor PLANE_ALIGN := le_roundUp (by decide)
      rw [← hlen] at hrest
      have hnext := ih hrest hfit
      unfold planesContent
      rw [length_append, length_append, length_zeros]
      have hsum : cursor + (roundUp cursor PLANE_ALIGN - cursor + piece.length +
          (planesContent (roundUp cursor PLANE_ALIGN + piece.length) pieces).length) =
          roundUp cursor PLANE_ALIGN + piece.length +
            (planesContent (roundUp cursor PLANE_ALIGN + piece.length) pieces).length := by omega
      rw [hsum, hnext]
      unfold finish
      cases ps with
      | nil =>
        rw [if_pos rfl, getLast?_singleton, Option.map_some, Option.getD_some, hoffset, hlen]
      | cons q qs => rw [if_neg (cons_ne_nil _ _), getLast?_cons_cons]

theorem flat_planeSegments : ∀ {pieces : List (List UInt8)} {cursor : Nat} {segments : List (Nat × List UInt8)},
    Writer.planeSegments cursor pieces = .ok segments → flat segments = planesContent cursor pieces := by
  intro pieces
  induction pieces with
  | nil =>
    intro cursor segments h
    cases h
    rfl
  | cons piece pieces ih =>
    intro cursor segments h
    unfold Writer.planeSegments at h
    obtain ⟨start, hstart, h⟩ := bind_eq_ok.mp h
    obtain ⟨rest, hrest, h⟩ := bind_eq_ok.mp h
    cases h
    have halign : alignUp cursor (2 ^ 8) = some start := okOr_eq_ok.mp hstart
    obtain ⟨-, rfl⟩ := (alignUp_eq_some (by decide)).mp halign
    rw [flat_cons, ih hrest]
    rfl

/-- The size of a type is that of its planes as one piece. -/
theorem canonicalSize_planes {t : Term} {shape : List Nat} {ps : List Plane} {pieces : List (List UInt8)} {size : Nat}
    (hps : t.planes shape = .ok ps) (hfit : Fit ps pieces) (hsize : t.canonicalSize shape = .ok size) :
    size = (planesContent 0 pieces).length := by
  have hzero : roundUp 0 PLANE_ALIGN = 0 := by decide
  have hlen := @planesContent_length ps pieces 0 (by rw [hzero]; exact planes_laid hps) hfit
  unfold Term.canonicalSize at hsize
  obtain ⟨ps', hps', hsize⟩ := bind_eq_ok.mp hsize
  cases hps.symm.trans hps'
  rw [zero_add] at hlen
  rw [hlen]
  cases hlast : ps.getLast? with
  | none =>
    rw [hlast] at hsize
    rw [if_pos (getLast?_eq_none_iff.mp hlast)]
    exact (Except.ok.inj hsize).symm
  | some p =>
    rw [hlast] at hsize
    have hne : ps ≠ [] := fun he => by rw [he] at hlast; cases hlast
    rw [if_neg hne, finish, hlast]
    unfold Result.plus at hsize
    dsimp only at hsize
    split at hsize
    · exact (Except.ok.inj hsize).symm
    · cases hsize

/-- How many bytes there are, or will be. -/
def size : Payload → Nat
  | .length n => n
  | payload => payload.content.length

/-- The blob of an object with bytes of its own is as long as they are; for a stream, as was declared. -/
theorem buildBlob_own {blob : Blob} (hown : Own b) (h : Writer.buildBlob env w (refused name) b = .ok (blob, payload)) :
    payload = b.payload ∧ blob = Blob.local 0 (size b.payload) ∧
      ∀ pieces, b.payload = .planes pieces → b.layout = none ∧ ∃ t ps, b.term = some t ∧ t.planes b.shape = .ok ps ∧
        Fit ps pieces := by
  obtain ⟨hencoding, hpayload⟩ := hown
  unfold Writer.buildBlob at h
  cases hp : b.payload with
  | bytes data =>
    rw [hp] at h
    dsimp only at h
    rw [hencoding] at h
    cases h
    exact ⟨rfl, rfl, fun _ h => (nomatch h)⟩
  | length n =>
    rw [hp] at h
    dsimp only at h
    rw [hencoding] at h
    cases h
    exact ⟨rfl, rfl, fun _ h => (nomatch h)⟩
  | planes pieces =>
    rw [hp] at h
    dsimp only at h
    obtain ⟨hlayout, h⟩ := check_eq_ok.mp h
    obtain ⟨-, h⟩ := check_eq_ok.mp h
    cases ht : b.term with
    | none =>
      rw [ht] at h
      cases h
    | some t =>
      rw [ht] at h
      dsimp only at h
      obtain ⟨ps, hps, h⟩ := bind_eq_ok.mp h
      obtain ⟨hcount, h⟩ := check_eq_ok.mp h
      obtain ⟨⟨⟩, hplanes, h⟩ := bind_eq_ok.mp h
      obtain ⟨total, hsize, h⟩ := bind_eq_ok.mp h
      cases h
      have hps := mapErr_eq_ok.mp hps
      have hfit := checkPlanes_fit (fun m a => refused_ne_ok name m a) (not_not.mp hcount) hplanes
      refine ⟨rfl, congrArg (Blob.local 0) (canonicalSize_planes hps hfit (mapErr_eq_ok.mp hsize)), fun pieces' he => ?_⟩
      cases he
      refine ⟨?_, t, ps, rfl, hps, hfit⟩
      cases hl : b.layout with
      | none => rfl
      | some _ => rw [hl] at hlayout; exact absurd rfl hlayout
  | encoded _ => rw [hp] at hpayload; exact hpayload.elim
  | external _ _ _ => rw [hp] at hpayload; exact hpayload.elim
  | linked _ => rw [hp] at hpayload; exact hpayload.elim
  | missing => rw [hp] at hpayload; exact hpayload.elim

theorem validateExternal_none {m : Manifest} {blob : Blob} (hm : m.shards = ∅) :
    Writer.validateExternal m blob ≠ .ok ⟨⟩ := by
  intro h
  unfold Writer.validateExternal at h
  split at h
  · cases h
  · rw [hm] at h
    obtain ⟨shard, hshard, -⟩ := bind_eq_ok.mp h
    rw [okOr_eq_ok, Std.TreeMap.getElem?_emptyc] at hshard
    cases hshard

theorem own_of_canonical (hcanonical : w.canonical = true) (hshards : w.manifest.shards = ∅)
    (h : Writer.build env w name b = .ok (object, payload)) : Own b := by
  rcases build_eq_ok h with ⟨-, hexternal⟩ | ⟨-, hencoding, blob, hblob, -, -⟩
  · exact absurd hexternal (validateExternal_none hshards)
  · have hnone : b.encoding = none := by
      cases he : b.encoding with
      | none => rfl
      | some _ => exact absurd ⟨by rw [he]; rfl, hcanonical⟩ hencoding
    refine ⟨hnone, ?_⟩
    unfold Writer.buildBlob at hblob
    cases hp : b.payload with
    | bytes _ => trivial
    | length _ => trivial
    | planes _ => trivial
    | encoded _ => rw [hp] at hblob; cases hblob
    | linked _ => rw [hp] at hblob; cases hblob
    | missing => rw [hp] at hblob; cases hblob
    | external shard start stop =>
      rw [hp] at hblob
      dsimp only at hblob
      obtain ⟨-, hblob⟩ := check_eq_ok.mp hblob
      obtain ⟨-, hblob⟩ := check_eq_ok.mp hblob
      obtain ⟨_, hexternal, -⟩ := bind_eq_ok.mp hblob
      exact absurd hexternal (validateExternal_none hshards)

end Pie.Proof.Building
