import Pie.Ztensor.Validate
import Pie.Proof.Cbor
import Pie.Proof.Planes

/-!
# What may be read of a file that was accepted

A file is accepted when its blobs lie between the magic and the footer, apart
from each other and from the manifest, each as long as its type says. Nothing
that is computed on the way leaves 64 bits, whatever the file says.
-/

namespace Pie.Proof.Images

open List Option Std Lib Lib.Words Ztensor TermText Planes Calm Fallible TreeMap Manifest
open Cbor (Value)

variable {env : Env} {dataEnd stop start : Nat} {m : Manifest} {buf bytes : List UInt8} {o : Object}
  {l : List (Nat × Nat)} {refs : Refs} {shard : Option Str} {α : Type} {f : α → Result PUnit} {footer : Footer}
  {manifestBlob x a b : Nat × Nat} {name : Str}

/-! ## Reading a manifest does not panic -/

section Fields

variable {σ : Type} {I : σ → Prop}

theorem readFields_calm {field : Str → Value → σ → Result σ} (hfield : ∀ key val st, I st → Calm I (field key val st))
    {init : σ} (hinit : I init) (entries : List (Value × Value)) : Calm I (readFields field init entries) := by
  unfold readFields
  refine Sound.foldlM (fun e _ st hst => ?_) hinit
  cases e.1.asText with
  | some key => exact hfield key e.2 st hst
  | none => exact hst

variable (v : Value)

theorem textOr_calm (field : Str) : Calm (fun _ => True) (v.textOr field) := okOr fun _ _ => trivial

theorem u64Or_calm (field : Str) : Calm (fun _ => True) (v.u64Or field) := okOr fun _ _ => trivial

theorem mapOr_calm (field : Str) : Calm (fun _ => True) (v.mapOr field) := okOr fun _ _ => trivial

theorem arrayOr_calm (field : Str) : Calm (fun _ => True) (v.arrayOr field) := okOr fun _ _ => trivial

theorem uintsOr_calm (field : Str) : Calm (fun _ => True) (v.uintsOr field) := by
  unfold Cbor.Value.uintsOr
  refine (arrayOr_calm v field).bind (fun items _ => ?_)
  exact (Sound.mapM (fun item _ => u64Or_calm item field)).mono (fun _ _ => trivial)

theorem bytesOr_calm (message : String) : Calm (fun _ => True) (v.bytesOr message) := by
  unfold Cbor.Value.bytesOr
  split
  · trivial
  · exact fail _

end Fields

theorem checkShardName_calm (name : Str) : Calm (fun _ => True) (checkShardName name) := by
  unfold checkShardName
  refine ite (fun _ => fail _) (fun _ => ite (fun _ => fail _) (fun _ => ite (fun _ => fail _) (fun _ => ?_)))
  split
  · trivial
  · exact fail _

theorem checkName_calm (name : Str) : Calm (fun _ => True) (checkName name) := by
  unfold checkName
  exact ite (fun _ => fail _) (fun _ => trivial)

theorem forM_calm : ∀ {l : List α}, (∀ a ∈ l, Calm (fun _ => True) (f a)) → Calm (fun _ => True) (l.forM f) := by
  intro l
  induction l with
  | nil => exact fun _ => trivial
  | cons a l ih =>
    intro h
    exact (h a mem_cons_self).bind (fun _ _ => ih fun b hb => h b (mem_cons_of_mem _ hb))

variable (v : Value)

theorem checkAttributes_calm : Calm (fun _ => True) (checkAttributes v) := by
  unfold checkAttributes
  refine Sound.bind (okOr (fun _ _ => trivial)) (fun entries _ => forM_calm fun e _ => ?_)
  exact Sound.bind (okOr (fun _ _ => trivial)) (fun key _ => checkName_calm key)

theorem parse_calm (s : Str) : Calm Positive (Term.parse s) := by
  rcases parse_cases s with ⟨t, hok, -, -, hpos⟩ | ⟨detail, hrejected⟩
  · rw [hok]
    exact hpos
  · rw [hrejected]
    exact fail _

theorem checkShape_calm (shape : List Nat) : Calm (fun _ => True) (checkShape shape) := by
  unfold checkShape
  exact ite (fun _ => fail _) (fun _ => okOr fun _ _ => trivial)

theorem digest_check_calm (d : Digest) : Calm (fun _ => True) d.check := by
  unfold Digest.check
  refine ite (fun _ => fail _) (fun _ => ?_)
  split
  · exact ite (fun _ => fail _) (fun _ => trivial)
  · trivial

theorem digest_fromValue_calm : Calm (fun _ => True) (Digest.fromValue v) := by
  unfold Digest.fromValue
  refine (mapOr_calm v _).bind (fun m _ => ?_)
  refine Sound.bind (readFields_calm (I := fun _ => True) (fun key val st _ => ?_) trivial m) (fun st _ => ?_)
  · refine ite (fun _ => ?_) (fun _ => ite (fun _ => ?_) (fun _ => trivial))
    · exact (textOr_calm val _).bind (fun _ _ => trivial)
    · exact (bytesOr_calm val _).bind (fun _ _ => trivial)
  · obtain ⟨algorithm, value⟩ := st
    dsimp only
    split
    · exact (digest_check_calm _).bind (fun _ _ => trivial)
    · exact fail _

theorem blocks_check_calm (b : Blocks) (digest : Digest) (decoded : Nat) : Calm (fun _ => True) (b.check digest decoded) := by
  unfold Blocks.check
  refine ite (fun _ => fail _) (fun _ => ite (fun _ => fail _) (fun _ => ?_))
  split
  · exact ite (fun _ => fail _) (fun _ => trivial)
  · trivial

theorem blocks_fromValue_calm : Calm (fun _ => True) (Blocks.fromValue v) := by
  unfold Blocks.fromValue
  refine (mapOr_calm v _).bind (fun m _ => ?_)
  refine Sound.bind (readFields_calm (I := fun _ => True) (fun key val st _ => ?_) trivial m) (fun st _ => ?_)
  · refine ite (fun _ => ?_) (fun _ => ite (fun _ => ?_) (fun _ => trivial))
    · exact (u64Or_calm val _).bind (fun _ _ => trivial)
    · refine (arrayOr_calm val _).bind (fun items _ => ?_)
      exact (Sound.mapM (fun d _ => bytesOr_calm d _)).bind (fun _ _ => trivial)
  · obtain ⟨size, digests⟩ := st
    dsimp only
    split
    · trivial
    · exact fail _

theorem blob_check_calm (b : Blob) : Calm (fun _ => True) b.check := by
  unfold Blob.check
  dsimp only
  refine check (fun _ => ?_)
  split
  on_goal 1 => refine (digest_check_calm _).bind (fun _ _ => ?_)
  -- with a digest or without one, the blocks are checked last
  all_goals
    split
    · exact fail _
    · exact blocks_check_calm _ _ _
    · trivial

theorem blob_fromValue_calm : Calm (fun _ => True) (Blob.fromValue v) := by
  unfold Blob.fromValue
  refine (mapOr_calm v _).bind (fun m _ => ?_)
  refine Sound.bind (readFields_calm (I := fun _ => True) (fun key val st _ => ?_) trivial m) (fun st _ => ?_)
  · refine ite (fun _ => (u64Or_calm val _).bind (fun _ _ => trivial)) (fun _ => ?_)
    refine ite (fun _ => (u64Or_calm val _).bind (fun _ _ => trivial)) (fun _ => ?_)
    refine ite (fun _ => ?_) (fun _ => ?_)
    · exact (textOr_calm val _).bind (fun name _ => (checkShardName_calm name).bind (fun _ _ => trivial))
    refine ite (fun _ => (textOr_calm val _).bind (fun _ _ => trivial)) (fun _ => ?_)
    refine ite (fun _ => (u64Or_calm val _).bind (fun _ _ => trivial)) (fun _ => ?_)
    refine ite (fun _ => (digest_fromValue_calm val).bind (fun _ _ => trivial)) (fun _ => ?_)
    exact ite (fun _ => (blocks_fromValue_calm val).bind (fun _ _ => trivial)) (fun _ => trivial)
  · obtain ⟨blob, offset, length⟩ := st
    dsimp only
    split
    · exact (blob_check_calm _).bind (fun _ _ => trivial)
    · exact fail _

/-- The type of the object can be laid out without dividing by zero. -/
def Placeable (o : Object) : Prop := ∀ t, o.term = some t → Positive t

theorem object_fromValue_calm : Calm Placeable (Object.fromValue v) := by
  unfold Object.fromValue
  refine (mapOr_calm v _).bind (fun m _ => ?_)
  refine Sound.bind (readFields_calm (I := fun (f : Object.Fields) => ∀ t, f.term = some t → Positive t)
    (fun key val st hst => ?_) (fun t (ht : none = some t) => nomatch ht) m) (fun st hst => ?_)
  · refine ite (fun _ => (uintsOr_calm val _).bind (fun _ _ => hst)) (fun _ => ?_)
    refine ite (fun _ => ?_) (fun _ => ?_)
    · refine (textOr_calm val _).bind (fun s _ => (parse_calm s).bind (fun t ht t' ht' => ?_))
      rw [← some.inj ht']
      exact ht
    refine ite (fun _ => (textOr_calm val _).bind (fun _ _ => hst)) (fun _ => ?_)
    refine ite (fun _ => (checkAttributes_calm val).bind (fun _ _ => hst)) (fun _ => ?_)
    exact ite (fun _ => (blob_fromValue_calm val).bind (fun _ _ => hst)) (fun _ => hst)
  · split
    · exact ite (fun _ => fail _) (fun _ => hst)
    · exact fail _

theorem parseShard_calm : Calm (fun _ => True) (parseShard v) := by
  unfold parseShard
  refine (mapOr_calm v _).bind (fun m _ => ?_)
  refine Sound.bind (readFields_calm (I := fun _ => True) (fun key val st _ => ?_) trivial m) (fun st _ => ?_)
  · refine ite (fun _ => (u64Or_calm val _).bind (fun _ _ => trivial)) (fun _ => ?_)
    exact ite (fun _ => (digest_fromValue_calm val).bind (fun _ _ => trivial)) (fun _ => trivial)
  · obtain ⟨size, digest⟩ := st
    dsimp only
    split
    · trivial
    · exact fail _

theorem parseShards_calm : Calm (fun _ => True) (parseShards v) := by
  unfold parseShards
  refine (mapOr_calm v _).bind (fun entries _ => Sound.foldlM (fun e _ shards _ => ?_) trivial)
  refine Sound.bind (okOr (fun _ _ => trivial)) (fun name _ => ?_)
  exact (checkShardName_calm name).bind (fun _ _ => (parseShard_calm e.2).bind (fun _ _ => trivial))

/-- Every object of the table is. -/
def AllPlaceable (objects : TreeMap Str Object) : Prop := ∀ (name : Str) (o : Object), objects[name]? = some o → Placeable o

theorem parseObjects_calm : Calm AllPlaceable (parseObjects v) := by
  unfold parseObjects
  refine (mapOr_calm v _).bind (fun entries _ => Sound.foldlM (fun e _ objects hobjects => ?_) ?_)
  · refine (textOr_calm e.1 _).bind (fun name _ => (checkName_calm name).bind (fun _ _ => ?_))
    refine (object_fromValue_calm e.2).bind (fun object hobject => ?_)
    intro name' o ho
    rw [TreeMap.getElem?_insert] at ho
    split at ho
    · rw [← some.inj ho]
      exact hobject
    · exact hobjects name' o ho
  · intro name o ho
    rw [getElem?_emptyc] at ho
    cases ho

theorem manifest_fromValue_calm : Calm (fun m => AllPlaceable m.objects) (fromValue v) := by
  unfold fromValue
  refine Sound.bind (okOr (fun _ _ => trivial)) (fun entries _ => ?_)
  have hnew : AllPlaceable new.objects := fun name o ho => by
    rw [new, getElem?_emptyc] at ho
    cases ho
  refine Sound.bind (readFields_calm (I := fun (st : Manifest × Bool) => AllPlaceable st.1.objects)
    (fun key val st hst => ?_) hnew entries) (fun st hst => ?_)
  · refine ite (fun _ => (checkAttributes_calm val).bind (fun _ _ => hst)) (fun _ => ?_)
    refine ite (fun _ => (parseShards_calm val).bind (fun _ _ => hst)) (fun _ => ?_)
    exact ite (fun _ => (parseObjects_calm val).bind (fun _ h => h)) (fun _ => hst)
  · obtain ⟨m, has⟩ := st
    dsimp only
    exact ite (fun _ => hst) (fun _ => fail _)

theorem decodeManifest_calm (env : Env) (bytes : List UInt8) (hash : BitVec 64) :
    Calm (fun m => AllPlaceable m.objects) (decodeManifest env bytes hash) := by
  unfold decodeManifest
  dsimp only
  refine check (fun _ => ?_)
  have hdecode := (Cbor.decode_from bytes).1
  refine Sound.bind (P := fun _ => True) ?_ (fun v _ => manifest_fromValue_calm v)
  cases hd : Ztensor.Cbor.decode bytes with
  | ok v => trivial
  | error stop =>
    cases stop with
    | error e => exact fail _
    | panic => exact absurd hd hdecode

/-! ## Ranges apart from each other -/

/-- A range ends before another begins. -/
def Before (a b : Nat × Nat) : Prop := a.1 + a.2 ≤ b.1

/-- Two ranges are one, or have no byte in common. -/
def Apart (a b : Nat × Nat) : Prop := a = b ∨ Before a b ∨ Before b a

theorem Before.trans {a b c : Nat × Nat} (h : Before a b) (h' : Before b c) : Before a c := by
  unfold Before at h h' ⊢
  omega

theorem mem_destutter (h : x ∈ l) : x ∈ l.destutter (· ≠ ·) := by
  have hfrom : ∀ {l : List (Nat × Nat)} {a : Nat × Nat}, x ∈ a :: l → x ∈ l.destutter' (· ≠ ·) a := by
    intro l
    induction l with
    | nil => exact fun h => h
    | cons b l ih =>
      intro a h
      rw [destutter'_cons]
      split
      · rcases mem_cons.mp h with rfl | h
        · exact mem_cons_self
        · exact mem_cons_of_mem _ (ih h)
      · rename_i hab
        obtain rfl := not_not.mp hab
        refine ih ?_
        rcases mem_cons.mp h with rfl | h
        · exact mem_cons_self
        · exact h
  cases l with
  | nil => cases h
  | cons a l => exact hfrom h

theorem mem_sortDedup : x ∈ sortDedup l ↔ x ∈ l := by
  unfold sortDedup
  constructor
  · intro h
    exact (mem_insertionSort _).mp ((destutter_sublist _ _).subset h)
  · intro h
    exact mem_destutter ((mem_insertionSort _).mpr h)

/-- Neighbours that do not overlap leave no overlap at all. -/
theorem noOverlap_pairwise : ∀ {l : List (Nat × Nat)}, noOverlap shard l = .ok () → l.Pairwise Before := by
  have hchain : ∀ {l : List (Nat × Nat)}, noOverlap shard l = .ok () → l.IsChain Before := by
    intro l
    induction l with
    | nil => exact fun _ => .nil
    | cons a l ih =>
      intro h
      cases l with
      | nil => exact .singleton a
      | cons b l =>
        unfold noOverlap at h
        obtain ⟨stop, hstop, h⟩ := bind_eq_ok.mp h
        unfold Result.plus at hstop
        split at hstop
        · cases hstop
          split at h
          · cases h
          · rename_i hle
            exact .cons_cons (Nat.not_lt.mp hle) (ih h)
        · cases hstop
  intro l h
  have : IsTrans (Nat × Nat) Before := ⟨fun _ _ _ => Before.trans⟩
  exact isChain_iff_pairwise.mp (hchain h)

theorem apart_of_noOverlap (h : noOverlap shard (sortDedup l) = .ok ()) (ha : a ∈ l) (hb : b ∈ l) : Apart a b := by
  have hpair := pairwise_iff_getElem.mp (noOverlap_pairwise h)
  obtain ⟨i, hi, rfl⟩ := getElem_of_mem (mem_sortDedup.mpr ha)
  obtain ⟨j, hj, rfl⟩ := getElem_of_mem (mem_sortDedup.mpr hb)
  rcases Nat.lt_trichotomy i j with hij | rfl | hij
  · exact .inr (.inl (hpair i j hi hj hij))
  · exact .inl rfl
  · exact .inr (.inr (hpair j i hj hi hij))

theorem noOverlap_calm : ∀ {l : List (Nat × Nat)}, (∀ r ∈ l, r.1 + r.2 < WORD) →
    Calm (fun _ => True) (noOverlap shard l) := by
  intro l
  induction l with
  | nil => exact fun _ => trivial
  | cons a l ih =>
    intro h
    cases l with
    | nil => trivial
    | cons b l =>
      unfold noOverlap
      rw [Result.plus, if_pos (h a mem_cons_self)]
      exact ite (fun _ => fail _) (fun _ => ih fun r hr => h r (mem_cons_of_mem _ hr))

/-! ## One object -/

/-- What is checked of an object. -/
structure ValidEntry (dataEnd : Nat) (o : Object) : Prop where
  offset : ALIGN_FLOOR ≤ o.blob.offset
  inside : o.blob.shard = none → o.blob.offset + o.blob.length ≤ dataEnd
  size : o.layout = none → o.canonicalSize = .ok o.blob.decodedSize

theorem mapErr_eq_ok {f : Error → Error} {x : Result α} {a : α} : Result.mapErr f x = .ok a ↔ x = .ok a := by
  cases x with
  | ok b => exact Iff.rfl
  | error stop =>
    cases stop with
    | error e => exact ⟨nofun, nofun⟩
    | panic => exact ⟨nofun, nofun⟩

theorem checked_filter {a b limit : Nat}
    (h : (checkedAdd a b).filter (fun stop => decide (stop ≤ limit)) = some stop) : a + b < WORD ∧ a + b ≤ limit := by
  obtain ⟨hadd, hle⟩ := filter_eq_some_iff.mp h
  obtain ⟨hlt, rfl⟩ := checkedAdd_eq_some.mp hadd
  exact ⟨hlt, of_decide_eq_true hle⟩

/-- The ranges after an object. -/
def pushed (refs : Refs) (b : Blob) : Refs := if 0 < b.length then refs.push b.shard (b.offset, b.length) else refs

theorem validateEntry_eq_ok {refs refs' : Refs} (h : validateEntry env m dataEnd refs name o = .ok refs') :
    ValidEntry dataEnd o ∧ o.blob.offset + o.blob.length < WORD ∧ refs' = pushed refs o.blob := by
  unfold validateEntry at h
  obtain ⟨_, -, h⟩ := bind_eq_ok.mp h
  obtain ⟨_, -, h⟩ := bind_eq_ok.mp h
  obtain ⟨hoffset, h⟩ := check_eq_ok.mp h
  obtain ⟨regionEnd, hregion, h⟩ := bind_eq_ok.mp h
  obtain ⟨stop, hstop, h⟩ := bind_eq_ok.mp h
  obtain ⟨hlt, hle⟩ := checked_filter (okOr_eq_ok.mp hstop)
  rw [not_or, Nat.not_lt] at hoffset
  have hinside : o.blob.shard = none → o.blob.offset + o.blob.length ≤ dataEnd := by
    intro hs
    rw [hs] at hregion
    rw [Except.ok.inj hregion]
    exact hle
  cases hlayout : o.layout with
  | none =>
    rw [hlayout] at h
    obtain ⟨expected, hexpected, h⟩ := bind_eq_ok.mp h
    by_cases hsize : o.blob.decodedSize = expected
    · rw [if_neg (not_not.mpr hsize)] at h
      refine ⟨⟨hoffset.2, hinside, fun _ => ?_⟩, hlt, (Except.ok.inj h).symm⟩
      rw [hsize]
      exact mapErr_eq_ok.mp hexpected
    · rw [if_pos hsize] at h
      cases h
  | some layout =>
    rw [hlayout] at h
    refine ⟨⟨hoffset.2, hinside, fun hn => ?_⟩, hlt, ?_⟩
    · rw [hlayout] at hn
      cases hn
    · cases hprofile : env.layout layout with
      | none =>
        simp only [hprofile] at h
        exact (Except.ok.inj h).symm
      | some validate =>
        simp only [hprofile] at h
        obtain ⟨_, -, h⟩ := bind_eq_ok.mp h
        exact (Except.ok.inj h).symm

/-- Ranges that hold bytes, within 64 bits. -/
def Bounded (refs : Refs) : Prop := ∀ shard, ∀ r ∈ refs.getD shard [], r.1 + r.2 < WORD

theorem getD_pushed {b : Blob} (shard : Option Str) : (pushed refs b).getD shard [] =
    if 0 < b.length ∧ b.shard = shard then refs.getD shard [] ++ [(b.offset, b.length)] else refs.getD shard [] := by
  unfold pushed
  by_cases hl : 0 < b.length
  · rw [if_pos hl, Refs.push, getD_insert]
    by_cases hs : b.shard = shard
    · subst hs
      rw [if_pos ReflOrd.compare_self, if_pos ⟨hl, rfl⟩]
    · rw [if_neg (fun hc => hs (LawfulEqOrd.eq_of_compare hc)), if_neg (fun hc => hs hc.2)]
  · rw [if_neg hl, if_neg (fun hc => hl hc.1)]

theorem Bounded.pushed {b : Blob} (h : Bounded refs) (hb : b.offset + b.length < WORD) :
    Bounded (Images.pushed refs b) := by
  intro shard r hr
  rw [getD_pushed] at hr
  split at hr
  · rcases mem_append.mp hr with hr | hr
    · exact h shard r hr
    · rw [mem_singleton.mp hr]
      exact hb
  · exact h shard r hr

/-- The layouts of the vocabulary do not panic. -/
def CalmLayouts (env : Env) : Prop := ∀ layout validate, env.layout layout = some validate →
  ∀ name o, Calm (fun _ => True) (validate name o)

theorem canonicalSize_calm (h : Placeable o) : Calm (fun _ => True) o.canonicalSize := by
  unfold Object.canonicalSize Object.canonicalTerm
  cases o.layout with
  | some layout => exact nofun
  | none =>
    cases ht : o.term with
    | none => exact nofun
    | some t => exact Planes.canonicalSize_calm (h t ht) o.shape

theorem validateEntry_calm (henv : CalmLayouts env) (ho : Placeable o) (hrefs : Bounded refs) : Calm Bounded (validateEntry env m dataEnd refs name o) := by
  have hcalm : Calm (fun _ => True) (validateEntry env m dataEnd refs name o) := by
    unfold validateEntry
    refine (checkName_calm name).bind (fun _ _ => ?_)
    refine (mapErr (checkShape_calm o.shape)).bind (fun _ _ => ?_)
    refine check (fun _ => ?_)
    refine Sound.bind (P := fun _ => True) ?_ (fun regionEnd _ => ?_)
    · split
      · trivial
      · split
        · exact fail _
        · exact ite (fun _ => fail _) (fun _ => trivial)
    · refine Sound.bind (okOr (fun _ _ => trivial)) (fun _ _ => ?_)
      cases o.layout with
      | none =>
        refine (mapErr (canonicalSize_calm ho)).bind (fun _ _ => ?_)
        exact ite (fun _ => fail _) (fun _ => trivial)
      | some layout =>
        dsimp only
        cases hprofile : env.layout layout with
        | none => trivial
        | some validate => exact (henv layout validate hprofile name o).bind (fun _ _ => trivial)
  cases hv : validateEntry env m dataEnd refs name o with
  | ok refs' =>
    obtain ⟨-, hlt, rfl⟩ := validateEntry_eq_ok hv
    exact hrefs.pushed hlt
  | error e => rw [hv] at hcalm; exact hcalm

/-! ## The whole manifest -/

theorem forM_eq_ok : ∀ {l : List α}, l.forM f = .ok ⟨⟩ → ∀ a ∈ l, f a = .ok ⟨⟩ := by
  intro l
  induction l with
  | nil => exact fun _ _ ha => (nomatch ha)
  | cons b l ih =>
    intro h a ha
    obtain ⟨_, hb, hl⟩ := bind_eq_ok.mp h
    rcases mem_cons.mp ha with rfl | ha
    · exact hb
    · exact ih hl a ha

/-- The ranges grow, and every object that was met is checked and among them. -/
theorem entries_checked : ∀ {l : List (Str × Object)} {refs refs' : Refs},
    l.foldlM (fun refs e => validateEntry env m dataEnd refs e.1 e.2) refs = .ok refs' →
    (∀ shard, ∀ r ∈ refs.getD shard [], r ∈ refs'.getD shard []) ∧ ∀ e ∈ l, ValidEntry dataEnd e.2 ∧
      (0 < e.2.blob.length → (e.2.blob.offset, e.2.blob.length) ∈ refs'.getD e.2.blob.shard []) := by
  intro l
  induction l with
  | nil =>
    intro refs refs' h
    cases h
    exact ⟨fun _ _ hr => hr, fun _ he => (nomatch he)⟩
  | cons a l ih =>
    intro refs refs' h
    obtain ⟨refs₁, ha, h⟩ := foldlM_cons_eq_ok.mp h
    obtain ⟨hvalid, -, rfl⟩ := validateEntry_eq_ok ha
    obtain ⟨hkept, hrest⟩ := ih h
    refine ⟨fun shard r hr => hkept shard r ?_, fun e he => ?_⟩
    · rw [getD_pushed]
      split
      · exact mem_append_left _ hr
      · exact hr
    · rcases mem_cons.mp he with rfl | he
      · refine ⟨hvalid, fun hl => hkept _ _ ?_⟩
        rw [getD_pushed, if_pos ⟨hl, rfl⟩]
        exact mem_append_cons_self
      · exact hrest e he

/-- The bytes of a blob. -/
def range (b : Blob) : Nat × Nat := (b.offset, b.length)

/-- The objects of a manifest that lies at `manifestBlob` are checked and apart. -/
structure ValidManifest (m : Manifest) (dataEnd : Nat) (manifestBlob : Nat × Nat) : Prop where
  entries : ∀ (name : Str) (o : Object), m.objects[name]? = some o → ValidEntry dataEnd o
  apart : ∀ (n₁ n₂ : Str) (o₁ o₂ : Object), m.objects[n₁]? = some o₁ → m.objects[n₂]? = some o₂ →
    o₁.blob.shard = none → o₂.blob.shard = none → 0 < o₁.blob.length → 0 < o₂.blob.length →
    Apart (range o₁.blob) (range o₂.blob)
  manifest : ∀ (name : Str) (o : Object), m.objects[name]? = some o → o.blob.shard = none → 0 < o.blob.length →
    Apart (range o.blob) manifestBlob

theorem validateManifest_eq_ok
    {occupied : List (Nat × Nat)} (h : validateManifest env m dataEnd manifestBlob = .ok occupied) :
    ValidManifest m dataEnd manifestBlob := by
  unfold validateManifest at h
  obtain ⟨_, -, h⟩ := bind_eq_ok.mp h
  obtain ⟨refs, hrefs, h⟩ := bind_eq_ok.mp h
  obtain ⟨_, hover, -⟩ := bind_eq_ok.mp h
  obtain ⟨hkept, hmet⟩ := entries_checked hrefs
  have hlisted : ∀ {name : Str} {o : Object}, m.objects[name]? = some o → (name, o) ∈ m.objects.toList :=
    fun ho => mem_toList_iff_getElem?_eq_some.mpr ho
  have hmanifest : manifestBlob ∈ refs.getD none [] := by
    refine hkept none manifestBlob ?_
    rw [getD_insert_self]
    exact mem_cons_self
  have hlocal : ∀ {name : Str} {o : Object}, m.objects[name]? = some o → o.blob.shard = none → 0 < o.blob.length →
      range o.blob ∈ refs.getD none [] := by
    intro name o ho hs hl
    have := (hmet _ (hlisted ho)).2 hl
    rwa [hs] at this
  -- Whatever lies in this file is in the list that was looked at for it.
  have hapart : ∀ {a b : Nat × Nat}, a ∈ refs.getD none [] → b ∈ refs.getD none [] → Apart a b := by
    intro a b ha hb
    rw [getD_eq_getD_getElem?] at ha hb
    cases hnone : refs[(none : Option Str)]? with
    | none =>
      rw [hnone] at ha
      cases ha
    | some ranges =>
      rw [hnone] at ha hb
      have hclear := forM_eq_ok hover (none, ranges) (mem_toList_iff_getElem?_eq_some.mpr hnone)
      exact apart_of_noOverlap hclear ha hb
  exact {
    entries := fun _ _ ho => (hmet _ (hlisted ho)).1
    apart := fun _ _ _ _ h₁ h₂ hs₁ hs₂ hl₁ hl₂ => hapart (hlocal h₁ hs₁ hl₁) (hlocal h₂ hs₂ hl₂)
    manifest := fun _ _ ho hs hl => hapart (hlocal ho hs hl) hmanifest }

theorem validateManifest_calm (henv : CalmLayouts env) (hm : AllPlaceable m.objects) (hblob : manifestBlob.1 + manifestBlob.2 < WORD) :
    Calm (fun _ => True) (validateManifest env m dataEnd manifestBlob) := by
  unfold validateManifest
  refine Sound.bind (forM_calm fun e _ => ?_) (fun _ _ => ?_)
  · refine (checkShardName_calm e.1).bind (fun _ _ => ?_)
    exact ite (fun _ => fail _) (fun _ => trivial)
  have hstart : Bounded ((∅ : Refs).insert none [manifestBlob]) := by
    intro shard r hr
    rw [getD_insert] at hr
    split at hr
    · rw [mem_singleton.mp hr]
      exact hblob
    · rw [getD_emptyc] at hr
      cases hr
  refine Sound.bind (Sound.foldlM (fun e he refs hrefs => ?_) hstart) (fun refs hrefs => ?_)
  · exact validateEntry_calm henv (hm e.1 e.2 (mem_toList_iff_getElem?_eq_some.mp he)) hrefs
  refine Sound.bind (forM_calm fun e he => noOverlap_calm fun r hr => hrefs e.1 r ?_) (fun _ _ => trivial)
  rw [getD_eq_getD_getElem?, mem_toList_iff_getElem?_eq_some.mp he]
  exact mem_sortDedup.mp hr

/-! ## The frame -/

/-- Reading a file that is at hand. -/
def readImage (buf : List UInt8) (start n : Nat) : Result (List UInt8) := do
  let stop ← Result.plus start n
  indexRange buf start stop

/-- The footer of a file. -/
def lastBytes (buf : List UInt8) : List UInt8 := buf.drop (buf.length - FOOTER_LEN)

/-- The place and the length of the manifest, as the footer has them. -/
def manifestRange (buf : List UInt8) : Nat × Nat :=
  (ofLe (footerField (lastBytes buf) 0 8), ofLe (footerField (lastBytes buf) 8 8))

theorem indexRange_eq_ok (h : indexRange buf start stop = .ok bytes) :
    start ≤ stop ∧ stop ≤ buf.length ∧ bytes = (buf.drop start).take (stop - start) := by
  unfold indexRange at h
  split at h
  · rename_i hb
    exact ⟨hb.1, hb.2, (Except.ok.inj h).symm⟩
  · cases h

theorem readImage_eq_ok {start n : Nat} (h : readImage buf start n = .ok bytes) :
    start + n ≤ buf.length ∧ bytes = (buf.drop start).take n := by
  obtain ⟨stop, hstop, h⟩ := bind_eq_ok.mp h
  unfold Result.plus at hstop
  split at hstop
  · cases hstop
    obtain ⟨-, hle, rfl⟩ := indexRange_eq_ok h
    exact ⟨hle, by rw [Nat.add_sub_cancel_left]⟩
  · cases hstop

theorem checkFrame_eq_ok {buf footer : List UInt8} (h : checkFrame buf.length (readImage buf) = .ok footer) :
    MIN_FILE_LEN ≤ buf.length ∧ footer = lastBytes buf := by
  unfold checkFrame at h
  obtain ⟨hlen, h⟩ := check_eq_ok.mp h
  obtain ⟨magic, -, h⟩ := bind_eq_ok.mp h
  obtain ⟨-, h⟩ := check_eq_ok.mp h
  obtain ⟨bytes, hbytes, h⟩ := bind_eq_ok.mp h
  obtain ⟨-, h⟩ := check_eq_ok.mp h
  obtain ⟨-, h⟩ := check_eq_ok.mp h
  cases h
  refine ⟨Nat.not_lt.mp hlen, ?_⟩
  obtain ⟨-, rfl⟩ := readImage_eq_ok hbytes
  refine take_of_length_le ?_
  rw [length_drop]
  omega

theorem checkFrame_calm (hbuf : buf.length ≤ Cbor.ISIZE_MAX) :
    Calm (fun _ => True) (checkFrame buf.length (readImage buf)) := by
  have hread : ∀ {start n : Nat}, start + n ≤ buf.length → Calm (fun _ => True) (readImage buf start n) := by
    intro start n h
    have hword : start + n < WORD := Nat.lt_of_le_of_lt (h.trans hbuf) (by decide)
    unfold readImage
    rw [Result.plus, if_pos hword]
    change Calm _ (indexRange buf start (start + n))
    rw [indexRange, if_pos ⟨Nat.le_add_right _ _, h⟩]
    trivial
  unfold checkFrame
  refine check (fun hlen => ?_)
  rw [MIN_FILE_LEN, Nat.not_lt] at hlen
  refine (hread (by omega)).bind (fun _ _ => check fun _ => ?_)
  refine (hread (by omega)).bind (fun _ _ => check fun _ => ?_)
  exact check (fun _ => trivial)

theorem parseFooter_eq_ok (h : parseFooter bytes = .ok (some footer)) :
    footer.offset = ofLe (footerField bytes 0 8) ∧ footer.length = ofLe (footerField bytes 8 8) := by
  unfold parseFooter at h
  dsimp only at h
  split at h
  · split at h <;> cases h
  · split at h
    · cases h
    · split at h
      · cases h
      · cases h
        exact ⟨rfl, rfl⟩

theorem parseFooter_calm (bytes : List UInt8) : Calm (fun _ => True) (parseFooter bytes) := by
  unfold parseFooter
  dsimp only
  refine ite (fun _ => ite (fun _ => fail _) (fun _ => trivial)) (fun _ => ?_)
  exact ite (fun _ => fail _) (fun _ => ite (fun _ => fail _) (fun _ => trivial))

theorem manifestBounds_eq_ok {fileLen manifestEnd dataEnd : Nat}
    (h : manifestBounds footer fileLen = .ok (manifestEnd, dataEnd)) : dataEnd = fileLen - FOOTER_LEN ∧
    manifestEnd = footer.offset + footer.length ∧ footer.offset + footer.length < WORD ∧ manifestEnd ≤ dataEnd := by
  unfold manifestBounds at h
  dsimp only at h
  split at h
  · rename_i stop hstop
    obtain ⟨hlt, hle⟩ := checked_filter hstop
    cases h
    obtain ⟨hadd, -⟩ := filter_eq_some_iff.mp hstop
    obtain ⟨-, rfl⟩ := checkedAdd_eq_some.mp hadd
    exact ⟨rfl, rfl, hlt, hle⟩
  · cases h

theorem manifestBounds_calm (footer : Footer) (fileLen : Nat) :
    Calm (fun b => manifestBounds footer fileLen = .ok b) (manifestBounds footer fileLen) := by
  cases h : manifestBounds footer fileLen with
  | ok b => rfl
  | error e =>
    unfold manifestBounds at h
    dsimp only at h
    split at h
    · cases h
    · cases h
      exact nofun

/-- What a file that was accepted leaves to be read. -/
structure Safe (buf : List UInt8) (m : Manifest) : Prop where
  inside : ∀ (name : Str) (o : Object), m.objects[name]? = some o → o.blob.shard = none →
    MAGIC.length ≤ o.blob.offset ∧ o.blob.offset + o.blob.length ≤ buf.length - FOOTER_LEN
  apart : ∀ (n₁ n₂ : Str) (o₁ o₂ : Object), m.objects[n₁]? = some o₁ → m.objects[n₂]? = some o₂ →
    o₁.blob.shard = none → o₂.blob.shard = none → 0 < o₁.blob.length → 0 < o₂.blob.length →
    Apart (range o₁.blob) (range o₂.blob)
  manifest : ∀ (name : Str) (o : Object), m.objects[name]? = some o → o.blob.shard = none → 0 < o.blob.length →
    Apart (range o.blob) (manifestRange buf)
  planes : ∀ (name : Str) (o : Object) (t : Term), m.objects[name]? = some o → o.term = some t → o.layout = none →
    ∃ ps, t.planes o.shape = .ok ps ∧ ps.Pairwise (fun p q => p.offset + p.len ≤ q.offset) ∧
      (∀ p ∈ ps, PLANE_ALIGN ∣ p.offset ∧ p.offset + p.len ≤ o.blob.decodedSize) ∧
      t.canonicalSize o.shape = .ok o.blob.decodedSize

theorem ValidEntry.planes (h : ValidEntry dataEnd o) {t : Term} (ht : o.term = some t)
    (hl : o.layout = none) : ∃ ps, t.planes o.shape = .ok ps ∧ ps.Pairwise (fun p q => p.offset + p.len ≤ q.offset) ∧
      (∀ p ∈ ps, PLANE_ALIGN ∣ p.offset ∧ p.offset + p.len ≤ o.blob.decodedSize) ∧
      t.canonicalSize o.shape = .ok o.blob.decodedSize := by
  have hsize := h.size hl
  unfold Object.canonicalSize Object.canonicalTerm at hsize
  rw [hl, ht] at hsize
  have hsize : t.canonicalSize o.shape = .ok o.blob.decodedSize := hsize
  obtain ⟨ps, hps, hfinish⟩ := canonicalSize_eq_ok.mp hsize
  have hlaid := planes_laid hps
  refine ⟨ps, hps, hlaid.pairwise, fun p hp => ⟨hlaid.aligned (dvd_zero _) p hp, ?_⟩, hsize⟩
  rw [← hfinish]
  exact hlaid.le_finish hp

theorem image_eq_ok (h : image env buf = .ok (some m)) : Safe buf m := by
  have h : (checkFrame buf.length (readImage buf) >>= fun footer => parseFooter footer >>= fun footer => _) =
    .ok (some m) := h
  obtain ⟨bytes, hframe, h⟩ := bind_eq_ok.mp h
  obtain ⟨footer, hfooter, h⟩ := bind_eq_ok.mp h
  obtain ⟨hlen, rfl⟩ := checkFrame_eq_ok hframe
  cases footer with
  | none => cases h
  | some footer =>
    obtain ⟨⟨manifestEnd, dataEnd⟩, hbounds, h⟩ := bind_eq_ok.mp h
    obtain ⟨_, -, h⟩ := bind_eq_ok.mp h
    obtain ⟨manifest, -, h⟩ := bind_eq_ok.mp h
    obtain ⟨occupied, hvalid, h⟩ := bind_eq_ok.mp h
    cases h
    obtain ⟨rfl, -, -, -⟩ := manifestBounds_eq_ok hbounds
    have hrange : (footer.offset, footer.length) = manifestRange buf :=
      Prod.ext (parseFooter_eq_ok hfooter).1 (parseFooter_eq_ok hfooter).2
    have hmanifest := validateManifest_eq_ok hvalid
    rw [hrange] at hmanifest
    exact {
      inside := fun name o ho hs =>
        ⟨Nat.le_trans (by decide) (hmanifest.entries name o ho).offset, (hmanifest.entries name o ho).inside hs⟩
      apart := hmanifest.apart
      manifest := hmanifest.manifest
      planes := fun name o t ho ht hl => (hmanifest.entries name o ho).planes ht hl }

theorem image_calm (henv : CalmLayouts env) (hbuf : buf.length ≤ Cbor.ISIZE_MAX) :
    Calm (fun _ => True) (image env buf) := by
  change Calm _ (checkFrame buf.length (readImage buf) >>= fun footer => parseFooter footer >>= fun footer => _)
  refine (checkFrame_calm hbuf).bind (fun bytes _ => (parseFooter_calm bytes).bind fun footer _ => ?_)
  cases footer with
  | none => trivial
  | some footer =>
    refine (manifestBounds_calm footer buf.length).bind (fun b hb => ?_)
    obtain ⟨manifestEnd, dataEnd⟩ := b
    obtain ⟨rfl, rfl, hlt, hle⟩ := manifestBounds_eq_ok hb
    dsimp only
    rw [indexRange, if_pos ⟨Nat.le_add_right _ _, hle.trans (Nat.sub_le _ _)⟩]
    refine (decodeManifest_calm env _ footer.hash).bind (fun m hm => ?_)
    exact (validateManifest_calm henv hm hlt).bind (fun _ _ => trivial)

/-- **A file that is accepted is safe to read**, and no file, shape or type
takes the computation out of 64 bits. -/
theorem image_safe (env : Env) : (∀ buf m, image env buf = .ok (some m) → Safe buf m) ∧
    (CalmLayouts env → ∀ buf : List UInt8, buf.length ≤ Cbor.ISIZE_MAX → image env buf ≠ .error .panic) ∧
    ∀ s t shape, Term.parse s = .ok t → t.planes shape ≠ .error .panic ∧ t.canonicalSize shape ≠ .error .panic := by
  have hnever : ∀ {α : Type} {P : α → Prop} {x : Result α}, Calm P x → x ≠ .error .panic := by
    intro α P x hx h
    rw [h] at hx
    exact hx rfl
  refine ⟨fun buf m h => image_eq_ok h, fun henv buf hbuf => hnever (image_calm henv hbuf), fun s t shape h => ?_⟩
  have hpos : Positive t := by
    have := parse_calm s
    rw [h] at this
    exact this
  exact ⟨hnever (planes_calm hpos shape), hnever (Planes.canonicalSize_calm hpos shape)⟩

/-- No profiles, and a hash that is always zero. -/
def plain : Env := ⟨fun _ => 0, fun _ => true, fun _ => none, fun _ => none⟩

/-- One object of two bytes at 4096, of the type `u8` and the shape `[2]`. -/
def pairManifest : List UInt8 :=
  [0xA1, 0x67] ++ ascii "objects" ++ [0xA1, 0x61] ++ ascii "a" ++ [0xA3, 0x64] ++ ascii "blob" ++ [0xA2, 0x66]
    ++ ascii "length" ++ [0x02, 0x66] ++ ascii "offset" ++ [0x19, 0x10, 0x00, 0x64] ++ ascii "type" ++ [0x62]
    ++ ascii "u8" ++ [0x65] ++ ascii "shape" ++ [0x81, 0x02]

def pairFile : List UInt8 :=
  MAGIC ++ List.replicate 4088 0 ++ [1, 2] ++ List.replicate 4094 0 ++ pairManifest ++ toLe 8 8192
    ++ toLe 8 pairManifest.length ++ toLe 8 0 ++ toLe 4 VERSION ++ toLe 4 0 ++ MAGIC

def accepted : Result (Option Manifest) → Bool
  | .ok (some _) => true
  | _ => false

theorem image_safe_pair : ∃ m, image plain pairFile = .ok (some m) ∧ Safe pairFile m := by
  have h : accepted (image plain pairFile) = true := by decide +kernel
  unfold accepted at h
  split at h
  · rename_i m hm
    exact ⟨m, hm, (image_safe plain).1 pairFile m hm⟩
  · cases h

end Pie.Proof.Images
