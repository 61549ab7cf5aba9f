import Pie.Lib.LittleEndian

/-!
# Reading bytes

A reader holds a byte string and how far it has read. A read gives a value and
the reader after it, returns an error, or panics.

Two judgments carry the proofs. `Reads p w a`: the program reads the bytes `w`
as the value `a`, whatever comes after them. `Yields p P`: it never panics, and
what it gives satisfies `P`.
-/

namespace Pie.Lib

open List

/-- Why a program stops: with an error that it returns, or in a panic. -/
inductive Stop (ε : Type) where
  | error (e : ε)
  | panic
deriving DecidableEq, Repr

structure Reader where
  bytes : List UInt8
  offset : Nat
  le : offset ≤ bytes.length

def Reader.new (bytes : List UInt8) : Reader := ⟨bytes, 0, Nat.zero_le _⟩

variable {α ε : Type} (r : Reader)

/-- What is left to read. -/
def Reader.rest : List UInt8 := r.bytes.drop r.offset

def Reader.remaining : Nat := r.bytes.length - r.offset

@[simp] theorem Reader.rest_new (bytes : List UInt8) : (Reader.new bytes).rest = bytes := rfl

theorem Reader.remaining_eq : r.remaining = r.rest.length := (length_drop).symm

abbrev Read (ε α : Type) := StateT Reader (Except (Stop ε)) α

namespace Read

variable {ε α β : Type}

def fail (e : ε) : Read ε α := fun _ => .error (.error e)

def panic : Read ε α := fun _ => .error .panic

/-- The value, or the error. -/
def expect (e : ε) : Option α → Read ε α
  | some a => pure a
  | none => fail e

/-- The value, or a panic. -/
def unwrap : Option α → Read ε α
  | some a => pure a
  | none => panic

/-- The next bytes; the end of the string is an error. -/
def take (eof : ε) (count : Nat) : Read ε (List UInt8) := fun r =>
  if h : r.offset + count ≤ r.bytes.length then
    .ok ((r.bytes.drop r.offset).take count, ⟨r.bytes, r.offset + count, h⟩)
  else .error (.error eof)

/-- The little-endian number the next bytes hold; an array of another length is a panic. -/
def number (eof : ε) (size : Nat) : Read ε Nat := do
  let bytes ← take eof size
  if bytes.length = size then pure (ofLe bytes) else panic

/-- A count of records that the rest of the string can hold. -/
def boundedCount (tooLarge : ε) (count minimum maximum : Nat) : Read ε Unit := fun r =>
  if minimum = 0 ∨ maximum < count ∨ r.remaining < count * minimum then .error (.error tooLarge)
  else .ok ((), r)

/-- `for _ in 0..n { out.push(item()?) }`. -/
def replicate (item : Read ε α) : Nat → Read ε (List α)
  | 0 => pure []
  | n + 1 => do
    let a ← item
    let as ← replicate item n
    pure (a :: as)

end Read

/-! ## Reading what was written -/

variable (p : Read ε α)

/-- The program reads the bytes `w` as `a`. -/
def Reads (w : List UInt8) (a : α) : Prop :=
  ∀ r rest, r.rest = w ++ rest → ∃ r' : Reader, p r = .ok (a, r') ∧ r'.bytes = r.bytes ∧ r'.rest = rest

namespace Reads

variable {ε α β : Type} {p : Read ε α} {w : List UInt8} {a : α}

theorem pure (a : α) : Reads (Pure.pure a : Read ε α) [] a := fun r _ hr => ⟨r, rfl, rfl, hr⟩

theorem bind {f : α → Read ε β} {w' : List UInt8} {b : β} (hp : Reads p w a) (hf : Reads (f a) w' b) :
    Reads (p >>= f) (w ++ w') b := by
  intro r rest hr
  obtain ⟨r₁, h1, hb1, hr1⟩ := hp r (w' ++ rest) (by rw [hr, append_assoc])
  obtain ⟨r₂, h2, hb2, hr2⟩ := hf r₁ rest hr1
  refine ⟨r₂, ?_, hb2.trans hb1, hr2⟩
  show (p r >>= fun x => f x.1 x.2) = _
  rw [h1]
  exact h2

/-- The rest of the program reads nothing more. -/
theorem bind_last {f : α → Read ε β} {b : β} (hp : Reads p w a) (hf : Reads (f a) [] b) : Reads (p >>= f) w b := by
  have h := hp.bind hf
  rwa [append_nil] at h

theorem map {f : α → β} (hp : Reads p w a) : Reads (f <$> p) w (f a) := by
  rw [map_eq_pure_bind]
  exact hp.bind_last (pure _)

theorem expect {e : ε} {x : Option α} (h : x = some a) : Reads (Read.expect e x) [] a := by
  subst h
  exact pure a

theorem take {eof : ε} {count : Nat} (h : w.length = count) : Reads (Read.take eof count) w w := by
  intro r rest hr
  have hle : r.offset + count ≤ r.bytes.length := by
    have := congrArg length hr
    rw [← Reader.remaining_eq, length_append, h] at this
    have := r.le
    unfold Reader.remaining at *
    omega
  refine ⟨⟨r.bytes, r.offset + count, hle⟩, ?_, rfl, ?_⟩
  · have htake : (r.bytes.drop r.offset).take count = w := by
      rw [show r.bytes.drop r.offset = w ++ rest from hr, ← h, take_left]
    unfold Read.take
    rw [dif_pos hle, htake]
  · show r.bytes.drop (r.offset + count) = rest
    rw [← drop_drop, show r.bytes.drop r.offset = w ++ rest from hr, ← h, drop_left]

theorem number {eof : ε} {size x : Nat} (h : x < 256 ^ size) : Reads (Read.number eof size) (toLe size x) x := by
  refine (take (toLe_length size x)).bind_last ?_
  rw [if_pos (toLe_length size x), ofLe_toLe h]
  exact pure x

/-- A count is no obstacle to records that are there. -/
theorem bounded {tooLarge : ε} {count minimum maximum : Nat} (hmin : 0 < minimum) (hmax : count ≤ maximum)
    (hlen : count * minimum ≤ w.length) (hp : Reads p w a) :
    Reads (Read.boundedCount tooLarge count minimum maximum >>= fun _ => p) w a := by
  intro r rest hr
  have hrem : ¬(minimum = 0 ∨ maximum < count ∨ r.remaining < count * minimum) := by
    rw [Reader.remaining_eq, hr, length_append]
    omega
  obtain ⟨r', h', hb, hr'⟩ := hp r rest hr
  refine ⟨r', ?_, hb, hr'⟩
  show (Read.boundedCount tooLarge count minimum maximum r >>= fun x => p x.2) = _
  unfold Read.boundedCount
  rw [if_neg hrem]
  exact h'

theorem replicateAll {item : Read ε α} : ∀ {ws : List (List UInt8)} {as : List α},
    Forall₂ (Reads item) ws as → Reads (Read.replicate item as.length) ws.flatten as := by
  intro ws as h
  induction h with
  | nil => exact pure []
  | cons ha _ ih =>
    rw [flatten_cons]
    exact ha.bind (ih.bind_last (pure _))

theorem replicate {item : Read ε α} {enc : α → List UInt8} {as : List α}
    (h : ∀ a ∈ as, Reads item (enc a) a) : Reads (Read.replicate item as.length) (as.flatMap enc) as := by
  rw [flatMap_def]
  exact replicateAll (forall₂_map_left_iff.mpr (forall₂_same.mpr h))

end Reads

/-! ## What a program gives -/

/-- The program does not panic, and gives only what satisfies `P`. -/
def Yields (P : α → Prop) : Prop :=
  ∀ r, p r ≠ .error .panic ∧ ∀ a r', p r = .ok (a, r') → P a

namespace Yields

variable {ε α β : Type} {p : Read ε α} {P Q : α → Prop}

theorem mono (h : Yields p P) (hPQ : ∀ a, P a → Q a) : Yields p Q :=
  fun r => ⟨(h r).1, fun a r' ha => hPQ a ((h r).2 a r' ha)⟩

theorem pure {a : α} (h : P a) : Yields (Pure.pure a : Read ε α) P := by
  intro r
  refine ⟨nofun, ?_⟩
  intro b r' hb
  cases hb
  exact h

theorem fail (e : ε) : Yields (Read.fail e : Read ε α) P := fun _ => ⟨nofun, nofun⟩

theorem bind {f : α → Read ε β} {R : β → Prop} (hp : Yields p P) (hf : ∀ a, P a → Yields (f a) R) :
    Yields (p >>= f) R := by
  intro r
  have hrun : (p >>= f) r = p r >>= fun x => f x.1 x.2 := rfl
  rw [hrun]
  cases hpr : p r with
  | error stop =>
    refine ⟨?_, nofun⟩
    intro hpanic
    obtain rfl : stop = .panic := Except.error.inj hpanic
    exact (hp r).1 hpr
  | ok x =>
    have ha := (hp r).2 x.1 x.2 hpr
    exact hf x.1 ha x.2

theorem expect {e : ε} {x : Option α} (h : ∀ a, x = some a → P a) : Yields (Read.expect e x) P := by
  cases x with
  | none => exact fail e
  | some a => exact pure (h a rfl)

theorem take (eof : ε) (count : Nat) : Yields (Read.take eof count) (fun bytes => bytes.length = count) := by
  intro r
  unfold Read.take
  split
  · rename_i hle
    refine ⟨nofun, ?_⟩
    intro bytes r' h
    cases h
    rw [length_take, length_drop]
    omega
  · exact ⟨nofun, nofun⟩

theorem number (eof : ε) (size : Nat) : Yields (Read.number eof size) (· < 256 ^ size) := by
  refine (take eof size).bind ?_
  intro bytes h
  rw [if_pos h]
  exact pure (h ▸ ofLe_lt bytes)

theorem boundedCount (tooLarge : ε) (count minimum maximum : Nat) :
    Yields (Read.boundedCount tooLarge count minimum maximum) (fun _ => count ≤ maximum) := by
  intro r
  unfold Read.boundedCount
  split
  · exact ⟨nofun, nofun⟩
  · rename_i hbound
    exact ⟨nofun, fun _ _ _ => by omega⟩

theorem replicate {item : Read ε α} (h : Yields item P) : ∀ n,
    Yields (Read.replicate item n) (fun as => as.length = n ∧ ∀ a ∈ as, P a)
  | 0 => pure ⟨rfl, by simp⟩
  | n + 1 => by
    refine h.bind (fun a ha => (replicate h n).bind (fun as has => pure ⟨by simp [has.1], ?_⟩))
    intro b hb
    rcases mem_cons.mp hb with rfl | hb
    · exact ha
    · exact has.2 b hb

end Yields

/-! ## One run -/

theorem Read.bind_ok {ε α β : Type} {p : Read ε α} {f : α → Read ε β} {r r' : Reader} {a : α}
    (h : p r = .ok (a, r')) : (p >>= f) r = f a r' := by
  show (p r >>= fun x => f x.1 x.2) = _
  rw [h]
  rfl

/-- From this reader the program does not panic, and it stops only where `Q` holds. -/
def From (p : Read ε α) (Q : α → Reader → Prop) : Prop :=
  p r ≠ .error .panic ∧ ∀ a r', p r = .ok (a, r') → Q a r'

namespace From

variable {ε α β : Type} {p : Read ε α} {Q Q' : α → Reader → Prop} {r : Reader}

theorem mono (h : From r p Q) (hQ : ∀ a r', Q a r' → Q' a r') : From r p Q' :=
  ⟨h.1, fun a r' ha => hQ a r' (h.2 a r' ha)⟩

theorem pure {a : α} (h : Q a r) : From r (Pure.pure a : Read ε α) Q := by
  refine ⟨nofun, fun b r' hb => ?_⟩
  cases hb
  exact h

theorem fail (e : ε) : From r (Read.fail e : Read ε α) Q := ⟨nofun, nofun⟩

theorem bind {f : α → Read ε β} {R : β → Reader → Prop} (hp : From r p Q)
    (hf : ∀ a r', Q a r' → From r' (f a) R) : From r (p >>= f) R := by
  cases hpr : p r with
  | error stop =>
    have hrun : (p >>= f) r = .error stop := by
      show (p r >>= fun x => f x.1 x.2) = _
      rw [hpr]
      rfl
    unfold From
    rw [hrun]
    refine ⟨fun hpanic => ?_, nofun⟩
    obtain rfl : stop = .panic := Except.error.inj hpanic
    exact hp.1 hpr
  | ok x =>
    have h := hf x.1 x.2 (hp.2 x.1 x.2 hpr)
    unfold From at h ⊢
    rwa [Read.bind_ok hpr]

end From

/-! ## What a program takes -/

/-- The program does not panic, and it took bytes that stand in `Q` to what it gives. -/
def Consumes (Q : List UInt8 → α → Prop) : Prop :=
  ∀ r, From r p (fun a r' => ∃ w, r'.bytes = r.bytes ∧ r.rest = w ++ r'.rest ∧ Q w a)

namespace Consumes

variable {ε α β : Type} {p : Read ε α} {Q Q' : List UInt8 → α → Prop}

theorem mono (h : Consumes p Q) (hQ : ∀ w a, Q w a → Q' w a) : Consumes p Q' :=
  fun r => (h r).mono (fun a _ ⟨w, hb, hr, hw⟩ => ⟨w, hb, hr, hQ w a hw⟩)

theorem pure {a : α} (h : Q [] a) : Consumes (Pure.pure a : Read ε α) Q :=
  fun _ => From.pure ⟨[], rfl, rfl, h⟩

theorem fail (e : ε) : Consumes (Read.fail e : Read ε α) Q := fun _ => From.fail e

theorem bind {f : α → Read ε β} {R : List UInt8 → β → Prop} (hp : Consumes p Q)
    (hf : ∀ w a, Q w a → Consumes (f a) (fun w' b => R (w ++ w') b)) : Consumes (p >>= f) R := by
  refine fun r => (hp r).bind ?_
  rintro a r₁ ⟨w, hb, hr, hw⟩
  refine (hf w a hw r₁).mono ?_
  rintro b r₂ ⟨w', hb', hr', hw'⟩
  exact ⟨w ++ w', hb'.trans hb, by rw [hr, hr', append_assoc], hw'⟩

theorem take (eof : ε) (count : Nat) : Consumes (Read.take eof count) (fun w bytes => w = bytes ∧ w.length = count) := by
  intro r
  by_cases hle : r.offset + count ≤ r.bytes.length
  · have hrun : Read.take eof count r = .ok ((r.bytes.drop r.offset).take count, ⟨r.bytes, r.offset + count, hle⟩) :=
      dif_pos hle
    refine ⟨fun hpanic => (nomatch hrun.symm.trans hpanic), fun bytes r' h => ?_⟩
    rw [hrun] at h
    cases h
    refine ⟨_, rfl, ?_, rfl, ?_⟩
    · unfold Reader.rest
      rw [← drop_drop, take_append_drop]
    · rw [length_take, length_drop]
      omega
  · have hrun : Read.take eof count r = .error (.error eof) := dif_neg hle
    exact ⟨fun hpanic => (nomatch hrun.symm.trans hpanic), fun _ _ h => (nomatch hrun.symm.trans h)⟩

theorem replicate {item : Read ε α} (h : Consumes item Q) : ∀ (n : Nat),
    Consumes (Read.replicate item n) (fun w as => as.length = n ∧ ∃ ws, Forall₂ Q ws as ∧ w = ws.flatten) := by
  intro n
  induction n with
  | zero => exact pure ⟨rfl, [], .nil, rfl⟩
  | succ n ih =>
    refine h.bind (fun w a hw => ih.bind (fun w' as has => pure ?_))
    obtain ⟨hlen, ws, hall, rfl⟩ := has
    exact ⟨by rw [length_cons, hlen], w :: ws, .cons hw hall, by rw [append_nil, flatten_cons]⟩

theorem offset {r r' : Reader} {w : List UInt8} (hb : r'.bytes = r.bytes) (hr : r.rest = w ++ r'.rest) :
    r'.offset = r.offset + w.length := by
  have h := congrArg length hr
  have h1 := r.le
  have h2 := r'.le
  unfold Reader.rest at h
  rw [length_append, length_drop, length_drop, hb] at h
  rw [hb] at h2
  omega

end Consumes

end Pie.Lib
