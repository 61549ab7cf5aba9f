import Pie.Proof.Building

/-!
# A run keeps a book

What a run of calls does, apart from how the bytes come: one object after the
other is entered in a book, which is the shelf of the file and the objects with
their places. A run that succeeds leaves the book of what it was given.
-/

namespace Pie.Proof.Tracks

open List Std Lib Lib.Words Lib.Effects Ztensor Planes Writing Shelves Sinks Building Writer Ends
open Cbor (Value)

variable {object : Object} {shape : List Nat} {ticket n : Nat} {o : Str × ObjectBuilder × List UInt8} {sink : Sink}

structure Book where
  shelf : Shelf
  /-- the objects that were entered, in their order -/
  entries : List (Str × Object)

/-- The blob of a content, placed. -/
def blobOf (env : Env) (blocks : Option Nat) (offset : Nat) (c : List UInt8) : Blob :=
  ⟨none, offset, c.length, none, none, some (digestOf env c), blocksOf env blocks c⟩

def Book.enter (env : Env) (align : Nat) (blocks : Option Nat) (k : Book) (g : Given) : Book :=
  let place := k.shelf.place env align g.content
  ⟨place.2, k.entries ++ [(g.name, g.object (blobOf env blocks place.1 g.content))]⟩

def insertAll (objects : TreeMap Str Object) (entries : List (Str × Object)) : TreeMap Str Object :=
  entries.foldl (fun objects e => objects.insert e.1 e.2) objects

variable {env : Env} {w w' : Writer} {s : Shelf} {name : Str} {b : ObjectBuilder}

/-! ## One object -/

theorem flat_single (data : List UInt8) : flat [(0, data)] = data := by
  rw [flat, flatMap_cons, flatMap_nil, append_nil]
  rfl

/-- `w'` is `w` after an object was entered. -/
structure Entered (env : Env) (w w' : Writer) (s : Shelf) (g : Given) : Prop where
  holds : Holds w' (s.place env w.align g.content).2
  frame : w' = { w with
    out := w'.out
    offset := w'.offset
    dedup := w'.dedup
    lastName := some g.name
    openSink := none
    manifest := w'.manifest }
  manifest : w'.manifest = { w.manifest with objects := w'.manifest.objects }
  objects : w'.manifest.objects = w.manifest.objects.insert g.name
    (g.object (blobOf env w.blocks (s.place env w.align g.content).1 g.content))

/-- What a writer checks of an object before it places it. -/
structure Checked (env : Env) (name : Str) (object : Object) : Prop where
  named : checkName name = .ok ⟨⟩
  shaped : ∃ n, checkShape object.shape = .ok n
  valid : Writer.validateObject env name object = .ok ⟨⟩

/-- The writer accepts an object of so many bytes. -/
structure Admitted (env : Env) (w : Writer) (name : Str) (b : ObjectBuilder) (n : Nat) : Prop where
  fresh : Writer.checkNewObject env w name b.shape = .ok ⟨⟩
  checked : Checked env name ((b.given name []).object (Blob.local 0 n))

theorem checkNewObject_checked (h : checkNewObject env w name shape = .ok ⟨⟩) :
    checkName name = .ok ⟨⟩ ∧ ∃ n, checkShape shape = .ok n := by
  unfold checkNewObject at h
  obtain ⟨-, h⟩ := check_eq_ok.mp h
  obtain ⟨_, hname, h⟩ := Fallible.bind_eq_ok.mp h
  obtain ⟨_, -, h⟩ := Fallible.bind_eq_ok.mp h
  obtain ⟨-, h⟩ := check_eq_ok.mp h
  obtain ⟨n, hshape, -⟩ := Fallible.bind_eq_ok.mp h
  exact ⟨Images.mapErr_eq_ok.mp hname, n, Images.mapErr_eq_ok.mp hshape⟩

theorem build_own {payload : Payload} (hown : Own b) (h : build env w name b = .ok (object, payload)) :
    payload = b.payload ∧ object = (b.given name []).object (Blob.local 0 (size b.payload)) ∧
      Admitted env w name b (size b.payload) := by
  rcases build_eq_ok h with ⟨hlinked, -⟩ | ⟨hfresh, -, blob, hblob, rfl, hvalid⟩
  · obtain ⟨-, hpayload⟩ := hown
    rw [hlinked] at hpayload
    exact hpayload.elim
  obtain ⟨rfl, rfl, -⟩ := buildBlob_own hown hblob
  obtain ⟨hname, hshape⟩ := checkNewObject_checked hfresh
  exact ⟨rfl, rfl, hfresh, hname, hshape, hvalid⟩

theorem checkNewObject_free (h : checkNewObject env w name shape = .ok ⟨⟩) : w.openSink = none := by
  unfold checkNewObject at h
  obtain ⟨hopen, -⟩ := check_eq_ok.mp h
  exact Option.not_isSome_iff_eq_none.mp hopen

/-- A blob that is placed, and its object committed. -/
theorem commit_ends {offset : Nat} {c : List UInt8} (hplaced : Shelves.Placed w w')
    (hholds : Holds w' (s.place env w.align c).2) (hfree : w.openSink = none)
    (hobject : object = (b.given name []).object (Blob.local 0 c.length))
    (hoffset : offset = (s.place env w.align c).1) :
    Ends (commit name { object with blob := { object.blob with
        offset := offset, digest := some (digestOf env c), blocks := blocksOf env w.blocks c } } w')
      (fun _ w'' => Entered env w w'' s (b.given name c)) (fun _ => True) := by
  subst hobject hoffset
  have hmanifest : w'.manifest = w.manifest := by rw [hplaced]
  refine modify ⟨hholds.congr rfl rfl rfl rfl, ?_, ?_, ?_⟩
  · rw [hplaced, hfree]
    rfl
  · rw [hmanifest]
  · rw [hmanifest]
    rfl

theorem object_ends (h : Holds w s) (hown : ∀ {r}, build env w name b = .ok r → Own b) :
    Ends (Writer.object env name b w) (fun _ w' => Admitted env w name b b.payload.content.length
      ∧ Entered env w w' s (b.given name b.payload.content)) (fun _ => True) := by
  unfold object
  refine Ends.bind (Ends.get (Ends.bind (lift (fun built hbuilt => ?_) (fun _ _ => trivial))))
  obtain ⟨object, payload⟩ := built
  have hown := hown hbuilt
  obtain ⟨rfl, hobject, hadmitted⟩ := build_own hown hbuilt
  cases hp : b.payload with
  | bytes data =>
    rw [hp] at hobject hadmitted
    refine Ends.bind ((writeOrShareSegments_ends h _ _).mono (fun r w₁ hr => ?_) (fun _ h => h))
    obtain ⟨offset, digest, blocks⟩ := r
    rw [flat_single] at hr
    obtain ⟨hoffset, rfl, rfl, hplaced, hholds⟩ := hr
    exact (commit_ends hplaced hholds (checkNewObject_free hadmitted.fresh) hobject hoffset).mono
      (fun _ _ he => ⟨hadmitted, he⟩) (fun _ h => h)
  | planes pieces =>
    rw [hp] at hobject hadmitted
    dsimp only
    unfold writePlanes
    refine Ends.bind (Ends.bind (lift (fun segments hsegments => ?_) (fun _ _ => trivial)))
    refine (writeOrShareSegments_ends h _ _).mono (fun r w₁ hr => ?_) (fun _ h => h)
    obtain ⟨offset, digest, blocks⟩ := r
    rw [flat_planeSegments hsegments] at hr
    obtain ⟨hoffset, rfl, rfl, hplaced, hholds⟩ := hr
    exact (commit_ends hplaced hholds (checkNewObject_free hadmitted.fresh) hobject hoffset).mono
      (fun _ _ he => ⟨hadmitted, he⟩) (fun _ h => h)
  | length n => exact trivial
  | encoded _ => exact (by obtain ⟨-, h⟩ := hown; rw [hp] at h; exact h.elim)
  | external _ _ _ => exact (by obtain ⟨-, h⟩ := hown; rw [hp] at h; exact h.elim)
  | linked _ => exact (by obtain ⟨-, h⟩ := hown; rw [hp] at h; exact h.elim)
  | missing => exact (by obtain ⟨-, h⟩ := hown; rw [hp] at h; exact h.elim)

/-! ## A stream -/

/-- The sink is that of an object described so. -/
structure Describes (sink : Sink) (name : Str) (b : ObjectBuilder) : Prop where
  named : sink.name = name
  object : ∃ offset, sink.object = (b.given name []).object (Blob.local offset sink.declared)

theorem Describes.fed {sink sink' : Sink} (h : Describes sink name b) (hfed : Fed sink sink') : Describes sink' name b := by
  obtain ⟨hname, offset, hobject⟩ := h
  refine ⟨?_, sink'.object.blob.offset, ?_⟩
  · rw [hfed]
    exact hname
  · rw [hfed]
    dsimp only
    rw [hobject]
    rfl

theorem stream_ends (h : Holds w s) (hown : ∀ {r}, build env w name b = .ok r → Own b) :
    Ends (stream env ticket name b w) (fun sink w' => Admitted env w name b sink.declared
      ∧ w' = { w with openSink := some ticket } ∧ Describes sink name b ∧ Streaming env w' sink s []) (fun _ => True) := by
  unfold stream
  refine Ends.bind (Ends.get (Ends.bind (lift (fun built hbuilt => ?_) (fun _ _ => trivial))))
  obtain ⟨object, payload⟩ := built
  have hown := hown hbuilt
  obtain ⟨rfl, hobject, hadmitted⟩ := build_own hown hbuilt
  cases hp : b.payload with
  | length declared =>
    rw [hp] at hobject hadmitted
    refine Ends.bind (Ends.set (Ends.pure ⟨hadmitted, rfl, ⟨rfl, 0, hobject⟩, ?_⟩))
    exact ⟨rfl, rfl, Nat.zero_le _, hashed_new env w.blocks, fun _ => rfl, .inl ⟨rfl, rfl, h.congr rfl rfl rfl rfl⟩⟩
  | bytes _ => exact trivial
  | planes _ => exact trivial
  | encoded _ => exact trivial
  | external _ _ _ => exact trivial
  | linked _ => exact trivial
  | missing => exact trivial

/-- **A stream enters what was received.** -/
theorem close_enters {received : List UInt8} (hsink : Describes sink name b) (h : Streaming env w sink s received) :
    Ends (Sink.close env sink w) (fun _ w' => Entered env w w' s (b.given name received)) (fun _ => True) := by
  refine (close_ends h).mono (fun _ w' hw' => ?_) (fun _ h => h)
  obtain ⟨hlength, hcommitted⟩ := hw'
  obtain ⟨rfl, offset, hobject⟩ := hsink
  refine ⟨hcommitted.holds, hcommitted.frame, hcommitted.manifest, ?_⟩
  rw [hcommitted.objects, hobject, ← hlength]
  rfl

/-! ## Names -/

/-- The name is one that canonical form allows. -/
def Normal (env : Env) (w₀ : Writer) (name : Str) : Prop :=
  w₀.canonical = true → Writer.isAscii name = true ∨ env.isNfc name = true

/-- The name is new, and for a canonical writer comes after those before it. -/
structure Fits (env : Env) (w₀ : Writer) (names : List Str) (name : Str) : Prop where
  normal : Normal env w₀ name
  fresh : w₀.manifest.objects.contains name = false
  after : ∀ n ∈ names, n ≠ name ∧ (w₀.canonical = true → compare n name = .lt)

/-- Every name fitted when it was entered. -/
structure Tidy (env : Env) (w₀ : Writer) (names : List Str) : Prop where
  normal : ∀ n ∈ names, Normal env w₀ n
  fresh : ∀ n ∈ names, w₀.manifest.objects.contains n = false
  order : names.Pairwise fun m n => m ≠ n ∧ (w₀.canonical = true → compare m n = .lt)

variable {w₀ : Writer} {names : List Str}

theorem Tidy.concat (h : Tidy env w₀ names) (hfits : Fits env w₀ names name) : Tidy env w₀ (names ++ [name]) where
  normal := by
    intro n hn
    rcases mem_append.mp hn with hn | hn
    · exact h.normal n hn
    · rw [mem_singleton.mp hn]
      exact hfits.normal
  fresh := by
    intro n hn
    rcases mem_append.mp hn with hn | hn
    · exact h.fresh n hn
    · rw [mem_singleton.mp hn]
      exact hfits.fresh
  order := pairwise_append.mpr ⟨h.order, pairwise_singleton _ _, fun m hm n hn => by
    rw [mem_singleton.mp hn]
    exact hfits.after m hm⟩

theorem contains_insertAll : ∀ {entries : List (Str × Object)} {objects : TreeMap Str Object},
    (insertAll objects entries).contains name = false ↔
      objects.contains name = false ∧ ∀ n ∈ entries.map (·.1), n ≠ name := by
  intro entries
  induction entries with
  | nil => exact fun {objects} => ⟨fun h => ⟨h, fun n hn => (nomatch hn)⟩, fun h => h.1⟩
  | cons e entries ih =>
    intro objects
    rw [insertAll, foldl_cons]
    change (insertAll _ _).contains name = false ↔ _
    rw [ih, TreeMap.contains_insert, Bool.or_eq_false_iff, map_cons, forall_mem_cons, beq_eq_false_iff_ne,
      ne_eq, Std.LawfulEqCmp.compare_eq_iff_eq]
    exact ⟨fun h => ⟨h.1.2, h.1.1, h.2⟩, fun h => ⟨⟨h.2.1, h.1⟩, h.2.2⟩⟩

theorem checkCanonicalName_normal (h : checkCanonicalName env w name = .ok ⟨⟩) :
    w.canonical = true → isAscii name = true ∨ env.isNfc name = true := by
  intro hc
  unfold checkCanonicalName at h
  split at h
  · cases h
  · rename_i hok
    by_contra hnot
    rw [not_or] at hnot
    exact hok ⟨hc, hnot.1, hnot.2⟩

/-- The last of the names comes before a name that is accepted, and so do the others. -/
theorem checkNewObject_fits {entries : List (Str × Object)} (h : checkNewObject env w name shape = .ok ⟨⟩)
    (hobjects : w.manifest.objects = insertAll w₀.manifest.objects entries) (hnames : entries.map (·.1) = names)
    (hcanonical : w.canonical = w₀.canonical) (hlast : w.lastName = names.getLast?) (htidy : Tidy env w₀ names) :
    Fits env w₀ names name := by
  unfold checkNewObject at h
  obtain ⟨-, h⟩ := check_eq_ok.mp h
  obtain ⟨_, -, h⟩ := Fallible.bind_eq_ok.mp h
  obtain ⟨⟨⟩, hnormal, h⟩ := Fallible.bind_eq_ok.mp h
  obtain ⟨hnew, h⟩ := check_eq_ok.mp h
  obtain ⟨_, -, h⟩ := Fallible.bind_eq_ok.mp h
  rw [Bool.not_eq_true, hobjects, contains_insertAll, hnames] at hnew
  refine ⟨fun hc => checkCanonicalName_normal hnormal (hcanonical.trans hc), hnew.1, fun n hn => ⟨hnew.2 n hn, fun hc => ?_⟩⟩
  rw [hcanonical, hc, if_pos rfl, hlast] at h
  rcases eq_nil_or_concat names with hnil | ⟨before, last, heq⟩
  · rw [hnil] at hn
    cases hn
  rw [concat_eq_append] at heq
  have horder := htidy.order
  rw [heq, pairwise_append] at horder
  rw [heq, getLast?_append, getLast?_singleton, Option.some_or] at h
  dsimp only at h
  split at h
  · cases h
  · rename_i hle
    have hlt : compare last name = .lt := by
      cases hc : compare name last with
      | gt => exact OrientedCmp.gt_iff_lt.mp hc
      | lt => rw [hc] at hle; exact absurd rfl hle
      | eq => rw [hc] at hle; exact absurd rfl hle
    rw [heq] at hn
    rcases mem_append.mp hn with hn | hn
    · exact TransCmp.lt_trans ((horder.2.2 n hn last (mem_singleton_self _)).2 hc) hlt
    · rw [mem_singleton.mp hn]
      exact hlt

/-! ## Runs -/

/-- What a writer checks of an object that is given. -/
def CheckedGiven (env : Env) (g : Given) : Prop :=
  Checked env g.name (g.object (Blob.local 0 g.content.length))

/-- The book of what was given. -/
def book (env : Env) (w₀ : Writer) (s₀ : Shelf) (gs : List Given) : Book :=
  gs.foldl (Book.enter env w₀.align w₀.blocks) ⟨s₀, []⟩

variable {s₀ : Shelf} {gs : List Given}

theorem book_concat (g : Given) :
    book env w₀ s₀ (gs ++ [g]) = (book env w₀ s₀ gs).enter env w₀.align w₀.blocks g := foldl_concat ..

theorem book_names : (book env w₀ s₀ gs).entries.map (·.1) = gs.map (·.name) := by
  induction gs using reverseRecOn with
  | nil => rfl
  | append_singleton gs g ih =>
    rw [book_concat, Book.enter, map_append, map_append, ih]
    rfl

/-- Between two calls: nothing is open, or the sink of an object that has received some bytes. -/
def Between (env : Env) (w₀ : Writer) (σ : Session) (k : Book) (names : List Str) : Opened → Prop
  | none => σ.sink = none ∧ σ.writer.openSink = none ∧ Holds σ.writer k.shelf
  | some (name, b, received) => Fits env w₀ names name ∧ ∃ sink, σ.sink = some sink ∧ Describes sink name b
      ∧ Checked env name ((b.given name []).object (Blob.local 0 sink.declared))
      ∧ Streaming env σ.writer sink k.shelf received

/-- **What a session keeps**, after these objects are complete. -/
structure Kept (env : Env) (w₀ : Writer) (s₀ : Shelf) (σ : Session) (gs : List Given) (attributes : Option Value)
    (opened : Opened) : Prop where
  attributes : σ.writer.manifest.attributes = attributes
  align : σ.writer.align = w₀.align
  blocks : σ.writer.blocks = w₀.blocks
  canonical : σ.writer.canonical = w₀.canonical
  shards : w₀.canonical = true → σ.writer.manifest.shards = ∅
  objects : σ.writer.manifest.objects = insertAll w₀.manifest.objects (book env w₀ s₀ gs).entries
  last : σ.writer.lastName = (gs.map (·.name)).getLast?
  tidy : Tidy env w₀ (gs.map (·.name))
  checked : ∀ g ∈ gs, CheckedGiven env g
  between : Between env w₀ σ (book env w₀ s₀ gs) (gs.map (·.name)) opened

/-- The call hands over the bytes of its object. -/
def Owns : Call → Prop
  | .object _ b => Own b
  | .stream _ b => Own b
  | .link _ _ _ => False
  | _ => True

section Steps

variable {σ : Session} {set : Option Value} {opened : Opened}

theorem Kept.congr {m : Manifest} (h : Kept env w₀ s₀ σ gs set opened)
    (hobjects : m.objects = σ.writer.manifest.objects) (hshards : w₀.canonical = true → m.shards = ∅) :
    Kept env w₀ s₀ { σ with writer := { σ.writer with manifest := m } } gs m.attributes opened where
  attributes := rfl
  align := h.align
  blocks := h.blocks
  canonical := h.canonical
  shards := hshards
  objects := hobjects.trans h.objects
  last := h.last
  tidy := h.tidy
  checked := h.checked
  between := by
    have hbetween := h.between
    match opened with
    | none => exact ⟨hbetween.1, hbetween.2.1, hbetween.2.2.congr rfl rfl rfl rfl⟩
    | some (name, b, received) =>
      obtain ⟨hfits, sink, hsink, hdescribes, hchecked, hstreaming⟩ := hbetween
      exact ⟨hfits, sink, hsink, hdescribes, hchecked, hstreaming.congr rfl⟩

theorem Kept.own (h : Kept env w₀ s₀ σ gs set opened) (howns : w₀.canonical = true ∨ Own b) {r : Object × Payload}
    (hr : build env σ.writer name b = .ok r) : Own b := by
  rcases howns with hc | howns
  · exact own_of_canonical (h.canonical.trans hc) (h.shards hc) hr
  · exact howns

theorem Kept.enter {w' : Writer} {sink : Option Sink} {g : Given}
    (h : Kept env w₀ s₀ σ gs set opened) (hfits : Fits env w₀ (gs.map (·.name)) g.name) (hchecked : CheckedGiven env g)
    (hentered : Entered env σ.writer w' (book env w₀ s₀ gs).shelf g) (hsink : sink = none) :
    Kept env w₀ s₀ ⟨w', sink, ticket⟩ (gs ++ [g]) set none where
  attributes := by
    rw [hentered.manifest]
    exact h.attributes
  align := by
    rw [hentered.frame]
    exact h.align
  blocks := by
    rw [hentered.frame]
    exact h.blocks
  canonical := by
    rw [hentered.frame]
    exact h.canonical
  shards := by
    intro hc
    rw [hentered.manifest]
    exact h.shards hc
  objects := by
    rw [hentered.objects, h.objects, h.align, h.blocks, book_concat, insertAll, insertAll, Book.enter, foldl_append]
    rfl
  last := by
    rw [hentered.frame, map_append, getLast?_append]
    rfl
  tidy := by
    rw [map_append]
    exact h.tidy.concat hfits
  checked := by
    intro g' hg'
    rcases mem_append.mp hg' with hg' | hg'
    · exact h.checked g' hg'
    · rw [mem_singleton.mp hg']
      exact hchecked
  between := by
    refine ⟨hsink, ?_, ?_⟩
    · rw [hentered.frame]
    · have hholds := hentered.holds
      rw [h.align] at hholds
      rw [book_concat]
      exact hholds

theorem Kept.fits (h : Kept env w₀ s₀ σ gs set opened) (hadmitted : Admitted env σ.writer name b n) :
    Fits env w₀ (gs.map (·.name)) name :=
  checkNewObject_fits hadmitted.fresh h.objects book_names h.canonical h.last h.tidy

/-- While a sink is open no object is admitted. -/
theorem Kept.not_admitted (h : Kept env w₀ s₀ σ gs set (some o)) : ¬ Admitted env σ.writer name b n := by
  intro hadmitted
  obtain ⟨-, sink, -, -, -, hstreaming⟩ := h.between
  have hfree := checkNewObject_free hadmitted.fresh
  rw [hstreaming.owner] at hfree
  cases hfree

theorem object_fails {Q : Unit → Writer → Prop} (h : ∀ r, build env w name b ≠ .ok r) :
    Ends (Writer.object env name b w) Q (fun _ => True) := by
  unfold object
  exact Ends.bind (Ends.get (Ends.bind (lift (fun r hr => absurd hr (h r)) (fun _ _ => trivial))))

theorem stream_fails {Q : Sink → Writer → Prop} (h : ∀ r, build env w name b ≠ .ok r) :
    Ends (stream env ticket name b w) Q (fun _ => True) := by
  unfold stream
  exact Ends.bind (Ends.get (Ends.bind (lift (fun r hr => absurd hr (h r)) (fun _ _ => trivial))))

theorem Kept.busy (h : Kept env w₀ s₀ σ gs set (some o))
    (howns : w₀.canonical = true ∨ Own b) (r : Object × Payload) : build env σ.writer name b ≠ .ok r := by
  intro hr
  exact h.not_admitted (build_own (h.own howns hr) hr).2.2

theorem object_step (h : Kept env w₀ s₀ σ gs set opened) (howns : w₀.canonical = true ∨ Own b) :
    Ends (Session.perform env (.object name b) σ) (fun _ σ' =>
      Kept env w₀ s₀ σ' (gs ++ completed opened (.object name b)) set (openedAfter opened (.object name b)))
      (fun _ => True) := by
  unfold Session.perform Session.onWriter
  match opened with
  | none =>
    obtain ⟨hsink, -, hholds⟩ := h.between
    refine zoom ?_
    refine (object_ends hholds (h.own howns)).mono (fun _ w' hw' => ?_) (fun _ _ => trivial)
    exact h.enter (h.fits hw'.1) hw'.1.checked hw'.2 hsink
  | some o => exact zoom ((object_fails (h.busy howns)).mono (fun _ _ h => h) (fun _ _ => trivial))

theorem stream_step (h : Kept env w₀ s₀ σ gs set opened) (howns : w₀.canonical = true ∨ Own b) :
    Ends (Session.perform env (.stream name b) σ) (fun _ σ' =>
      Kept env w₀ s₀ σ' (gs ++ completed opened (.stream name b)) set (openedAfter opened (.stream name b)))
      (fun _ => True) := by
  unfold Session.perform Session.stream Session.onWriter
  refine Ends.bind (Ends.get ?_)
  match opened with
  | none =>
    obtain ⟨hsink, -, hholds⟩ := h.between
    refine Ends.bind (zoom ?_)
    refine (stream_ends hholds (h.own howns)).mono (fun sink w' hw' => modify ?_) (fun _ _ => trivial)
    obtain ⟨hadmitted, rfl, hdescribes, hstreaming⟩ := hw'
    change Kept _ _ _ _ (gs ++ []) _ _
    rw [append_nil]
    exact ⟨h.attributes, h.align, h.blocks, h.canonical, h.shards, h.objects, h.last, h.tidy, h.checked, h.fits hadmitted, sink, rfl,
      hdescribes, hadmitted.checked, hstreaming⟩
  | some o => exact Ends.bind (zoom ((stream_fails (h.busy howns)).mono (fun _ _ h => h) (fun _ _ => trivial)))

theorem write_step {chunk : List UInt8} (h : Kept env w₀ s₀ σ gs set opened) :
    Ends (Session.perform env (.write chunk) σ) (fun _ σ' =>
      Kept env w₀ s₀ σ' (gs ++ completed opened (.write chunk)) set (openedAfter opened (.write chunk))) (fun _ => True) := by
  unfold Session.perform Session.write
  refine Ends.bind (Ends.get ?_)
  match opened with
  | none =>
    obtain ⟨hsink, -, -⟩ := h.between
    rw [hsink]
    trivial
  | some (name, b, received) =>
    obtain ⟨hfits, sink, hsink, hdescribes, hchecked, hstreaming⟩ := h.between
    rw [hsink]
    refine zoom ?_
    refine (write_ends hstreaming chunk).mono (fun _ st hst => ?_) (fun _ _ => trivial)
    obtain ⟨w', sink'⟩ := st
    obtain ⟨hstreaming', hframe, hfed⟩ := hst
    have hframe : w' = { σ.writer with out := w'.out, offset := w'.offset } := hframe
    change Kept _ _ _ _ (gs ++ []) _ _
    rw [append_nil]
    have hfed : Fed sink sink' := hfed
    have hdeclared : sink'.declared = sink.declared := by rw [hfed]
    refine ⟨?_, ?_, ?_, ?_, fun hc => ?_, ?_, ?_, h.tidy, h.checked, hfits, sink', rfl, hdescribes.fed hfed, ?_,
      hstreaming'⟩
    · rw [hframe]; exact h.attributes
    · rw [hframe]; exact h.align
    · rw [hframe]; exact h.blocks
    · rw [hframe]; exact h.canonical
    · rw [hframe]; exact h.shards hc
    · rw [hframe]; exact h.objects
    · rw [hframe]; exact h.last
    · rw [hdeclared]; exact hchecked

theorem close_step (h : Kept env w₀ s₀ σ gs set opened) : Ends (Session.perform env .close σ) (fun _ σ' =>
      Kept env w₀ s₀ σ' (gs ++ completed opened .close) set (openedAfter opened .close)) (fun _ => True) := by
  unfold Session.perform Session.close Session.onWriter
  refine Ends.bind (Ends.get ?_)
  match opened with
  | none =>
    obtain ⟨hsink, -, -⟩ := h.between
    rw [hsink]
    trivial
  | some (name, b, received) =>
    obtain ⟨hfits, sink, hsink, hdescribes, hchecked, hstreaming⟩ := h.between
    rw [hsink]
    refine Ends.bind (modify (zoom ?_))
    refine ((close_enters hdescribes hstreaming).and (close_ends hstreaming)).mono (fun _ w' hw' => ?_) (fun _ _ => trivial)
    obtain ⟨hentered, hlength, -⟩ := hw'
    rw [← hlength] at hchecked
    exact h.enter hfits hchecked hentered rfl

theorem link_step {shard : Str} (h : Kept env w₀ s₀ σ gs set opened) (hc : w₀.canonical = true)
    {Q : Unit → Session → Prop} : Ends (Session.perform env (.link name object shard) σ) Q (fun _ => True) := by
  unfold Session.perform Session.onWriter Writer.link
  refine zoom (ite (fun _ => trivial) (fun _ => ?_))
  refine (object_fails (fun r hr => ?_)).mono (fun _ _ h => h) (fun _ _ => trivial)
  exact (own_of_canonical (h.canonical.trans hc) (h.shards hc) hr).2

theorem addShard_step {shard : Shard} (h : Kept env w₀ s₀ σ gs set opened) :
    Ends (Session.perform env (.addShard name shard) σ) (fun _ σ' => Kept env w₀ s₀ σ' gs set opened) (fun _ => True) := by
  unfold Session.perform Session.onWriter addShard
  refine zoom (Ends.bind (Ends.get ?_))
  refine ite (fun _ => Ends.bind trivial) (fun hc => ?_)
  refine Ends.bind (lift (fun _ _ => ?_) (fun _ _ => trivial))
  refine Ends.bind (lift (fun _ _ => ?_) (fun _ _ => trivial))
  refine ite (fun _ => Ends.bind trivial) (fun _ => ?_)
  have hkept : Kept env w₀ s₀ ⟨{ σ.writer with
      manifest := { σ.writer.manifest with shards := σ.writer.manifest.shards.insert name shard } }, σ.sink, σ.ticket⟩ gs set opened := by
    rw [← h.attributes]
    exact h.congr rfl fun hw => absurd (h.canonical.trans hw) hc
  cases σ.writer.manifest.shards[name]? with
  | some existing => exact ite (fun _ => Ends.bind trivial) (fun _ => Ends.set hkept)
  | none => exact Ends.set hkept

theorem setAttributes_step {attributes : Value} (h : Kept env w₀ s₀ σ gs set opened) :
    Ends (Session.perform env (.setAttributes attributes) σ) (fun _ σ' => Kept env w₀ s₀ σ' gs (some attributes) opened)
      (fun _ => True) := by
  unfold Session.perform Session.onWriter setAttributes
  refine zoom (modify ?_)
  exact @Kept.congr env w₀ s₀ gs σ set opened { σ.writer.manifest with attributes := some attributes } h rfl h.shards

/-- **One call**: what is complete with it is entered. -/
theorem perform_step {call : Call} (h : Kept env w₀ s₀ σ gs set opened) (howns : w₀.canonical = true ∨ Owns call) :
    Ends (Session.perform env call σ) (fun _ σ' =>
      Kept env w₀ s₀ σ' (gs ++ completed opened call) (attributesAfter set [call]) (openedAfter opened call)) (fun _ => True) := by
  cases call with
  | object name b => exact object_step h howns
  | stream name b => exact stream_step h howns
  | write chunk => exact write_step h
  | close => exact close_step h
  | link name object shard => exact link_step h (howns.resolve_right id)
  | setAttributes attributes =>
    have hstep := @setAttributes_step env w₀ s₀ gs σ set opened attributes h
    cases opened <;> simpa only [completed, openedAfter, attributesAfter, append_nil] using hstep
  | addShard name shard =>
    have hstep := @addShard_step env name w₀ s₀ gs σ set opened shard h
    cases opened <;> simpa only [completed, openedAfter, attributesAfter, append_nil] using hstep

theorem attributesAfter_cons (call : Call) (calls : List Call) :
    attributesAfter set (call :: calls) = attributesAfter (attributesAfter set [call]) calls := by
  cases call <;> rfl

end Steps

/-- **A run**: what it was given is entered, in order. -/
theorem run_kept : ∀ {calls : List Call} {σ : Session} {gs : List Given} {set : Option Value} {opened : Opened},
    Kept env w₀ s₀ σ gs set opened → (w₀.canonical = true ∨ ∀ call ∈ calls, Owns call) →
    Ends (Session.run env calls σ) (fun _ σ' => ∃ opened',
      Kept env w₀ s₀ σ' (gs ++ givens opened calls) (attributesAfter set calls) opened') (fun _ => True) := by
  intro calls
  induction calls with
  | nil =>
    intro σ gs set opened h _
    refine Ends.pure ⟨opened, ?_⟩
    rw [givens, append_nil]
    exact h
  | cons call calls ih =>
    intro σ gs set opened h howns
    have hfirst : w₀.canonical = true ∨ Owns call := howns.imp_right fun h => h call mem_cons_self
    refine Ends.bind ((perform_step h hfirst).mono (fun _ σ' hσ' => ?_) (fun _ h => h))
    refine (ih hσ' (howns.imp_right fun h c hc => h c (mem_cons_of_mem _ hc))).mono (fun _ σ'' hσ'' => ?_)
      (fun _ h => h)
    rw [append_assoc, ← attributesAfter_cons] at hσ''
    exact hσ''

end Pie.Proof.Tracks
