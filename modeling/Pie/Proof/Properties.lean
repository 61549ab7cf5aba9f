import Mathlib.Data.Nat.Bitwise
import Pie.Lib.Fallible
import Pie.Grammar.Properties

/-!
# The two ways of writing optional properties

What both write is a list: in the order they are declared, some of the properties
with all required ones among them, then additional pairs, in a number that the
bounds admit. One more property in front adds the lists that leave it out to the
lists that begin with it, and both ways do.
-/

namespace Pie.Proof.Properties

open List Grammar Grammar.FrontendExpr Lib Lib.Languages Language

variable {word : List UInt8} {pairs : List FrontendExpr} {converter : Converter} {index n selected : Nat}

/-- Some of the pairs of the properties in order, those of all required properties among them. -/
inductive Selects : List Property → List FrontendExpr → Prop
  | nil : Selects [] []
  | take {property : Property} {properties : List Property} {pairs : List FrontendExpr} (h : Selects properties pairs) :
      Selects (property :: properties) (property.pair :: pairs)
  | skip {property : Property} {properties : List Property} {pairs : List FrontendExpr} (hr : property.required = false)
      (h : Selects properties pairs) : Selects (property :: properties) pairs

section Lists

variable (min : Nat) (max : Option Nat) (additional : Option FrontendExpr) (ws : FrontendExpr)

/-- A comma and what may stand after it. -/
def separator (ws : FrontendExpr) (env : Env) : Language UInt8 := (lit ",").language env * ws.language env

/-- The lists of properties and additional pairs that go on after `emitted` pairs. -/
def propertyLists (env : Env) (properties : List Property) (emitted : Nat) : Language UInt8 :=
  {word | ∃ pairs extra, Selects properties pairs ∧ (∀ pair ∈ extra, pair ∈ additional)
    ∧ Within min max (emitted + (pairs ++ extra).length)
    ∧ word ∈ listing (separator ws env) emitted ((pairs ++ extra).map (language env))}

/-- Some selection leaves a tail that can be written. -/
def Reaches (properties : List Property) (emitted : Nat) : Prop :=
  ∃ pairs, Selects properties pairs ∧ (additionalTail (emitted + pairs.length) min max additional ws).isSome

end Lists

variable {min : Nat} {max : Option Nat} {additional : Option FrontendExpr} {ws : FrontendExpr} {env : Env}
  {property : Property} {properties : List Property} {emitted : Nat}

theorem language_separated (pair : FrontendExpr) :
    (seq [lit ",", ws, pair]).language env = separator ws env * pair.language env := by
  rw [language_seq, map_cons, map_cons, map_cons, map_nil, prod_cons, prod_cons, prod_singleton, ← mul_assoc]
  rfl

/-! ## The tail -/

theorem any_lt {max : Option Nat} : max.any (· < n) = true ↔ ∃ m ∈ max, m < n := by
  cases max with
  | none => exact ⟨nofun, nofun⟩
  | some m => exact ⟨fun h => ⟨m, rfl, of_decide_eq_true h⟩, fun ⟨_, hm, h⟩ => decide_eq_true (Option.mem_some.mp hm ▸ h)⟩

theorem within_sub (h : ∀ m ∈ max, emitted ≤ m) :
    Within (min - emitted) (max.map (· - emitted)) n ↔ Within min max (emitted + n) := by
  refine and_congr (by omega) ⟨fun hle m hm => ?_, fun hle m hm => ?_⟩
  · have := hle (m - emitted) (Option.mem_map_of_mem _ hm)
    have := h m hm
    omega
  · obtain ⟨m', hm', rfl⟩ := Option.mem_map.mp hm
    have := hle m' hm'
    omega

/-- From one item on, an item and the separated rest. -/
theorem language_separatedItems {item : FrontendExpr} (hmax : max ≠ some 0) :
    word ∈ (separatedItems item min max ws).language env
      ↔ ∃ n, Within min max n ∧ word ∈ listing (separator ws env) 0 (replicate n (item.language env)) := by
  have hmax1 : ∀ m ∈ max, 1 ≤ m := fun m hm => Nat.one_le_iff_ne_zero.mpr fun h0 => hmax (h0 ▸ hm)
  have hsome : ∀ {word : List UInt8}, word ∈ (seq [item, .repeat (seq [lit ",", ws, item]) (min - 1) (max.map (· - 1))]).language env
      ↔ ∃ n, Within min max (1 + n) ∧ word ∈ listing (separator ws env) 0 (replicate (n + 1) (item.language env)) := by
    intro word
    rw [language_seq, map_cons, map_cons, map_nil, prod_cons, prod_singleton, language_repeat,
      language_separated, mem_mul]
    constructor
    · rintro ⟨a, ha, b, ⟨n, hn, hb⟩, rfl⟩
      refine ⟨n, (within_sub hmax1).mp hn, ?_⟩
      rw [listing_replicate_zero]
      exact append_mem_mul ha hb
    · rintro ⟨n, hn, hw⟩
      rw [listing_replicate_zero] at hw
      obtain ⟨a, ha, b, hb, he⟩ := mem_mul.mp hw
      exact ⟨a, ha, b, ⟨n, (within_sub hmax1).mpr hn, hb⟩, he⟩
  unfold separatedItems
  rw [if_neg hmax]
  split
  · next hmin =>
      rw [language_optional]
      constructor
      · rintro (h | h)
        · exact ⟨0, ⟨hmin.le, fun m _ => Nat.zero_le m⟩, h⟩
        · obtain ⟨n, hn, hw⟩ := hsome.mp h
          exact ⟨n + 1, add_comm 1 n ▸ hn, hw⟩
      · rintro ⟨n, hn, hw⟩
        cases n with
        | zero => exact .inl hw
        | succ n => exact .inr (hsome.mpr ⟨n, add_comm 1 n ▸ hn, hw⟩)
  · next hmin =>
      rw [hsome]
      constructor
      · rintro ⟨n, hn, hw⟩
        exact ⟨n + 1, add_comm 1 n ▸ hn, hw⟩
      · rintro ⟨n, hn, hw⟩
        cases n with
        | zero => exact absurd (Nat.le_zero.mp hn.1) hmin
        | succ n => exact ⟨n, add_comm 1 n ▸ hn, hw⟩

theorem mem_propertyLists_nil : word ∈ propertyLists min max additional ws env [] emitted
    ↔ ∃ extra : List FrontendExpr, (∀ pair ∈ extra, pair ∈ additional) ∧ Within min max (emitted + extra.length)
      ∧ word ∈ listing (separator ws env) emitted (extra.map (language env)) := by
  constructor
  · rintro ⟨pairs, extra, hs, he, hn, hw⟩
    cases hs with
    | nil => exact ⟨extra, he, hn, hw⟩
  · rintro ⟨extra, he, hn, hw⟩
    exact ⟨[], extra, .nil, he, hn, hw⟩

theorem propertyLists_none : word ∈ propertyLists min max none ws env [] emitted
    ↔ Within min max emitted ∧ word = [] := by
  rw [mem_propertyLists_nil]
  constructor
  · rintro ⟨extra, he, hn, hw⟩
    cases extra with
    | nil => exact ⟨hn, hw⟩
    | cons pair extra => exact absurd (he pair mem_cons_self) nofun
  · rintro ⟨hn, hw⟩
    exact ⟨[], nofun, hn, hw⟩

theorem propertyLists_some {pair : FrontendExpr} : word ∈ propertyLists min max (some pair) ws env [] emitted
      ↔ ∃ n, Within min max (emitted + n) ∧ word ∈ listing (separator ws env) emitted (replicate n (pair.language env)) := by
  rw [mem_propertyLists_nil]
  constructor
  · rintro ⟨extra, he, hn, hw⟩
    have hrep : extra = replicate extra.length pair :=
      eq_replicate_of_mem fun e hm => (Option.mem_some.mp (he e hm)).symm
    rw [hrep, map_replicate] at hw
    exact ⟨extra.length, hn, hw⟩
  · rintro ⟨n, hn, hw⟩
    refine ⟨replicate n pair, fun e hm => ?_, by rwa [length_replicate], by rwa [map_replicate]⟩
    rw [eq_of_mem_replicate hm]
    rfl

/-- What the tail means; without one no number of additional pairs will do. -/
theorem additionalTail_spec : (∀ tail ∈ additionalTail emitted min max additional ws,
      tail.language env = propertyLists min max additional ws env [] emitted)
    ∧ (additionalTail emitted min max additional ws = none →
      propertyLists min max additional ws env [] emitted = 0) := by
  have hempty : (∀ m ∈ max, emitted ≤ m) →
      (∀ word, word ∈ propertyLists min max additional ws env [] emitted ↔ Within min max emitted ∧ word = []) →
      (∀ tail ∈ (if min - emitted = 0 then some FrontendExpr.empty else none),
          tail.language env = propertyLists min max additional ws env [] emitted)
        ∧ ((if min - emitted = 0 then some FrontendExpr.empty else none) = none →
          propertyLists min max additional ws env [] emitted = 0) := by
    intro hle h
    split
    · next hn =>
        refine ⟨fun tail ht => ?_, nofun⟩
        obtain rfl := Option.mem_some.mp ht
        rw [language_empty]
        exact ext_mem fun word => ⟨fun hw => (h word).mpr ⟨⟨by omega, hle⟩, hw⟩, fun hw => ((h word).mp hw).2⟩
    · next hn =>
        refine ⟨nofun, fun _ => ext_mem fun word => ⟨fun hw => ?_, fun hw => hw.elim⟩⟩
        have := ((h word).mp hw).1.1
        omega
  unfold additionalTail
  by_cases hover : max.any (· < emitted) = true
  · rw [if_pos hover]
    obtain ⟨m, hm, hlt⟩ := any_lt.mp hover
    refine ⟨nofun, fun _ => ext_mem fun word => ⟨?_, fun hw => hw.elim⟩⟩
    rw [mem_propertyLists_nil]
    rintro ⟨extra, -, hn, -⟩
    have := hn.2 m hm
    omega
  · rw [if_neg hover]
    have hle : ∀ m ∈ max, emitted ≤ m := fun m hm => not_lt.mp fun hlt => hover (any_lt.mpr ⟨m, hm, hlt⟩)
    cases additional with
    | none => exact hempty hle fun word => propertyLists_none
    | some pair =>
      by_cases hzero : max.map (· - emitted) = some 0
      · simp only [if_pos hzero]
        -- the bound is met already, so that no additional pair may follow
        refine hempty hle fun word => propertyLists_some.trans ⟨fun ⟨n, hn, hw⟩ => ?_, fun ⟨hn, hw⟩ => ⟨0, hn, hw⟩⟩
        obtain ⟨m, hm, hm0⟩ := Option.map_eq_some_iff.mp hzero
        have := hn.2 m hm
        obtain rfl : n = 0 := by omega
        exact ⟨hn, hw⟩
      · simp only [if_neg hzero]
        split
        · next hpos =>
            refine ⟨fun tail ht => ext_mem fun word => ?_, nofun⟩
            obtain rfl := Option.mem_some.mp ht
            obtain ⟨k, rfl⟩ := Nat.exists_eq_succ_of_ne_zero hpos.ne'
            rw [language_repeat, language_separated, propertyLists_some]
            simp only [listing_replicate]
            exact exists_congr fun n => and_congr_left' (within_sub hle)
        · next hpos =>
            obtain rfl := Nat.eq_zero_of_not_pos hpos
            refine ⟨fun tail ht => ext_mem fun word => ?_, nofun⟩
            obtain rfl := Option.mem_some.mp ht
            rw [language_separatedItems hzero, propertyLists_some]
            exact exists_congr fun n => and_congr_left' (within_sub hle)

/-! ## One property more -/

theorem selects_cons : Selects (property :: properties) pairs ↔ (property.required = false ∧ Selects properties pairs)
      ∨ ∃ rest, pairs = property.pair :: rest ∧ Selects properties rest := by
  constructor
  · intro h
    cases h with
    | take h => exact .inr ⟨_, rfl, h⟩
    | skip hr h => exact .inl ⟨hr, h⟩
  · rintro (⟨hr, h⟩ | ⟨rest, rfl, h⟩)
    · exact .skip hr h
    · exact .take h

/-- The pair, and a separator before it if it is not the first. -/
theorem language_pair : (separatedPair emitted ws property.pair).language env
    = if emitted = 0 then property.pair.language env else separator ws env * property.pair.language env := by
  unfold separatedPair
  split
  · rfl
  · exact language_separated _

/-- **One property more.** The lists leave it out, if they may, or begin with it. -/
theorem propertyLists_cons : propertyLists min max additional ws env (property :: properties) emitted
    = (if property.required then 0 else propertyLists min max additional ws env properties emitted)
      + (separatedPair emitted ws property.pair).language env
        * propertyLists min max additional ws env properties (emitted + 1) := by
  refine ext_mem fun word => ⟨?_, ?_⟩
  · rintro ⟨pairs, extra, hs, he, hn, hw⟩
    rcases selects_cons.mp hs with ⟨hr, hs'⟩ | ⟨rest, rfl, hs'⟩
    · refine .inl ?_
      rw [hr]
      exact ⟨pairs, extra, hs', he, hn, hw⟩
    · rw [cons_append, map_cons, listing_cons, ← language_pair] at hw
      obtain ⟨a, ha, b, hb, rfl⟩ := mem_mul.mp hw
      refine .inr (append_mem_mul ha ⟨rest, extra, hs', he, ?_, hb⟩)
      rwa [cons_append, length_cons, add_comm _ 1, ← add_assoc] at hn
  · rintro (hw | hw)
    · by_cases hr : property.required = true
      · rw [if_pos hr] at hw
        exact hw.elim
      · rw [if_neg hr] at hw
        obtain ⟨pairs, extra, hs, he, hn, hw⟩ := hw
        exact ⟨pairs, extra, .skip (Bool.eq_false_iff.mpr hr) hs, he, hn, hw⟩
    · obtain ⟨a, ha, b, ⟨rest, extra, hs, he, hn, hb⟩, rfl⟩ := mem_mul.mp hw
      refine ⟨_, extra, .take hs, he, ?_, ?_⟩
      · rwa [cons_append, length_cons, add_comm _ 1, ← add_assoc]
      · rw [cons_append, map_cons, listing_cons, ← language_pair]
        exact append_mem_mul ha hb

theorem reaches_cons : Reaches min max additional ws (property :: properties) emitted
    ↔ (property.required = false ∧ Reaches min max additional ws properties emitted)
      ∨ Reaches min max additional ws properties (emitted + 1) := by
  constructor
  · rintro ⟨pairs, hs, ht⟩
    rcases selects_cons.mp hs with ⟨hr, hs'⟩ | ⟨rest, rfl, hs'⟩
    · exact .inl ⟨hr, pairs, hs', ht⟩
    · exact .inr ⟨rest, hs', by rwa [length_cons, add_comm _ 1, ← add_assoc] at ht⟩
  · rintro (⟨hr, pairs, hs, ht⟩ | ⟨rest, hs, ht⟩)
    · exact ⟨pairs, .skip hr hs, ht⟩
    · exact ⟨_, .take hs, by rwa [length_cons, add_comm _ 1, ← add_assoc]⟩

theorem reaches_nil : Reaches min max additional ws [] emitted ↔ (additionalTail emitted min max additional ws).isSome := by
  constructor
  · rintro ⟨pairs, hs, ht⟩
    cases hs with
    | nil => exact ht
  · exact fun ht => ⟨[], .nil, ht⟩

theorem not_reaches_over {m : Nat} (hm : m ∈ max) (hlt : m < emitted) : ¬Reaches min max additional ws properties emitted := by
  rintro ⟨pairs, -, ht⟩
  unfold additionalTail at ht
  rw [if_pos (any_lt.mpr ⟨m, hm, by omega⟩)] at ht
  cases ht

/-- Where nothing can be written there are no lists. -/
theorem propertyLists_unreached : ∀ {properties : List Property} {emitted : Nat},
    ¬Reaches min max additional ws properties emitted → propertyLists min max additional ws env properties emitted = 0 := by
  intro properties
  induction properties with
  | nil =>
    intro emitted h
    exact additionalTail_spec.2 (Option.not_isSome_iff_eq_none.mp fun hs => h (reaches_nil.mpr hs))
  | cons property properties ih =>
    intro emitted h
    rw [reaches_cons, not_or] at h
    rw [propertyLists_cons, ih h.2, mul_zero, add_zero]
    split
    · rfl
    · next hr => exact ih fun hreach => h.1 ⟨Bool.eq_false_iff.mpr hr, hreach⟩

section Unbounded

variable (hmin : min = 0) (hmax : max = none)
include hmin hmax

/-- Without bounds only whether a pair has been emitted matters. -/
theorem propertyLists_collapse : propertyLists min max additional ws env properties (emitted + 1)
    = propertyLists min max additional ws env properties 1 := by
  subst hmin hmax
  refine ext_mem fun word => exists_congr fun pairs => exists_congr fun extra => and_congr_right fun _ =>
    and_congr_right fun _ => and_congr ⟨fun _ => within_none, fun _ => within_none⟩ ?_
  rw [listing_succ]

theorem reaches_unbounded : Reaches min max additional ws properties emitted := by
  subst hmin hmax
  induction properties generalizing emitted with
  | nil =>
    refine reaches_nil.mpr ?_
    unfold additionalTail
    cases additional with
    | none => exact if_pos (Nat.zero_sub emitted) ▸ rfl
    | some pair =>
      simp only [Option.any_none, Option.map_none, reduceCtorEq, if_false]
      split <;> rfl
  | cons property properties ih => exact reaches_cons.mpr (.inr ih)

end Unbounded

/-! ## The subsets -/

theorem oneShl_eq {bits : Nat} (h : bits < 64) : oneShl bits = 2 ^ bits := by
  unfold oneShl
  rw [Nat.mod_eq_of_lt h, Nat.one_shiftLeft]

theorem and_oneShl {selected bit : Nat} (h : bit < 64) : (selected &&& oneShl bit != 0) = selected.testBit bit := by
  rw [oneShl_eq h, Nat.and_two_pow]
  cases selected.testBit bit with
  | false => rw [Bool.toNat_false, zero_mul]; rfl
  | true => rw [Bool.toNat_true, one_mul]; exact bne_iff_ne.mpr (Nat.two_pow_pos bit).ne'

/-- The pairs of the required properties and of the optional ones whose bits, the lowest first, are set. -/
def pick : List Property → Nat → List FrontendExpr
  | [], _ => []
  | property :: properties, selected =>
    if property.required then property.pair :: pick properties selected
    else if selected.testBit 0 then property.pair :: pick properties (selected / 2)
    else pick properties (selected / 2)

theorem pick_required (h : property.required = true) (selected : Nat) :
    pick (property :: properties) selected = property.pair :: pick properties selected := if_pos h

theorem pick_optional (h : property.required = false) (selected : Nat) :
    pick (property :: properties) selected = if selected.testBit 0 then property.pair :: pick properties (selected / 2)
      else pick properties (selected / 2) := if_neg (Bool.eq_false_iff.mp h)

theorem length_pick_le : ∀ {properties : List Property} {selected : Nat}, (pick properties selected).length ≤ properties.length := by
  intro properties
  induction properties with
  | nil => exact le_refl 0
  | cons property properties ih =>
    intro selected
    unfold pick
    split
    · exact Nat.succ_le_succ ih
    · split
      · exact Nat.succ_le_succ ih
      · exact ih.trans (Nat.le_succ _)

theorem selects_pick : ∀ {properties : List Property} {selected : Nat}, Selects properties (pick properties selected) := by
  intro properties
  induction properties with
  | nil => exact .nil
  | cons property properties ih =>
    intro selected
    unfold pick
    split
    · exact .take ih
    · next hr =>
        split
        · exact .take ih
        · exact .skip (Bool.eq_false_iff.mpr hr) ih

/-- The indices of the optional ones among properties that begin at `index`. -/
def optionalFrom (index : Nat) (properties : List Property) : List Nat :=
  (properties.zipIdx index).filterMap fun (property, index) => if property.required then none else some index

theorem optionalFrom_cons : optionalFrom index (property :: properties)
    = (if property.required then [] else [index]) ++ optionalFrom (index + 1) properties := by
  unfold optionalFrom
  rw [zipIdx_cons, filterMap_cons]
  by_cases h : property.required = true
  · simp only [if_pos h, nil_append]
  · simp only [if_neg h, singleton_append]

/-- Every selection is picked by some number of as many bits as there are optional properties. -/
theorem exists_pick (h : Selects properties pairs) (index : Nat) :
    ∃ selected < 2 ^ (optionalFrom index properties).length, pick properties selected = pairs := by
  induction h generalizing index with
  | nil => exact ⟨0, Nat.two_pow_pos _, rfl⟩
  | @take property properties pairs _ ih =>
    obtain ⟨selected, hlt, rfl⟩ := ih (index + 1)
    rw [optionalFrom_cons]
    cases hr : property.required with
    | true => exact ⟨selected, hlt, pick_required hr selected⟩
    | false =>
      refine ⟨2 * selected + 1, ?_, ?_⟩
      · show 2 * selected + 1 < 2 ^ ((optionalFrom (index + 1) properties).length + 1)
        rw [pow_succ]
        omega
      · rw [pick_optional hr, if_pos (by rw [Nat.testBit_zero]; exact decide_eq_true (by omega)),
          show (2 * selected + 1) / 2 = selected by omega]
  | @skip property properties pairs hr _ ih =>
    obtain ⟨selected, hlt, rfl⟩ := ih (index + 1)
    rw [optionalFrom_cons, hr]
    refine ⟨2 * selected, ?_, ?_⟩
    · show 2 * selected < 2 ^ ((optionalFrom (index + 1) properties).length + 1)
      rw [pow_succ]
      omega
    · rw [pick_optional hr, if_neg (by rw [Nat.testBit_zero, decide_eq_true_eq]; omega),
        show 2 * selected / 2 = selected by omega]

theorem findIdx?_append {before after : List Nat} {index : Nat} (h : ∀ i ∈ before, i < index) :
    (before ++ index :: after).findIdx? (· == index) = some before.length := by
  rw [List.findIdx?_append, List.findIdx?_eq_none_iff.mpr fun i hi => beq_eq_false_iff_ne.mpr (h i hi).ne,
    findIdx?_cons, beq_self_eq_true]
  simp only [if_true, Option.map_some, Option.none_or, zero_add]

/-- A property is picked by the bit whose number is the number of optional properties before it. -/
theorem filterMap_pick (selected : Nat) : ∀ {properties : List Property} {before : List Nat} {index : Nat},
    (∀ i ∈ before, i < index) → (before ++ optionalFrom index properties).length ≤ 64 →
    ((properties.zipIdx index).filterMap fun (property, i) =>
      if property.required || ((before ++ optionalFrom index properties).findIdx? (· == i)).any
          (fun bit => selected &&& oneShl bit != 0)
      then some property.pair else none) = pick properties (selected / 2 ^ before.length) := by
  intro properties
  induction properties with
  | nil => exact fun _ _ => rfl
  | cons property properties ih =>
    intro before index hbefore hlen
    rw [optionalFrom_cons] at hlen ⊢
    rw [zipIdx_cons, filterMap_cons]
    cases hr : property.required with
    | true =>
      rw [hr] at hlen
      have hrest := ih (fun i hi => (hbefore i hi).trans (Nat.lt_succ_self _)) hlen
      simp only [hr, Bool.true_or, if_true, nil_append]
      rw [hrest, pick_required hr]
    | false =>
      rw [pick_optional hr]
      rw [hr, if_neg Bool.false_ne_true] at hlen
      rw [if_neg Bool.false_ne_true]
      have hbit : before.length < 64 := by
        rw [length_append, length_append, length_singleton] at hlen
        omega
      have hrest := @ih (before ++ [index]) (index + 1) (fun i hi => by
        rcases mem_append.mp hi with hi | hi
        · exact (hbefore i hi).trans (Nat.lt_succ_self _)
        · exact mem_singleton.mp hi ▸ Nat.lt_succ_self _) (by rwa [append_assoc])
      rw [append_assoc, length_append, length_singleton, pow_succ, ← Nat.div_div_eq_div_mul] at hrest
      simp only [hr, Bool.false_or]
      rw [hrest, singleton_append, findIdx?_append hbefore, Option.any_some, and_oneShl hbit,
        Nat.testBit_div_two_pow, zero_add]
      cases selected.testBit before.length <;> rfl

theorem selectPairs_eq (h : (optionalIndices properties).length ≤ 64) :
    selectPairs properties selected = pick properties selected := by
  have hpick := @filterMap_pick selected properties [] 0 nofun h
  rwa [length_nil, pow_zero, Nat.div_one] at hpick

/-! ## Enumerating -/

theorem prod_interspersePairs :
    ((interspersePairs pairs ws).map (language env)).prod = listing (separator ws env) 0 (pairs.map (language env)) := by
  have hfrom : ∀ (pairs : List FrontendExpr) (m : Nat),
      (((pairs.zipIdx m).flatMap fun e => if 0 < e.2 then [lit ",", ws, e.1] else [e.1]).map (language env)).prod
        = listing (separator ws env) m (pairs.map (language env)) := by
    intro pairs
    induction pairs with
    | nil => exact fun m => (prod_nil).trans (by cases m <;> rfl)
    | cons pair pairs ih =>
      intro m
      rw [zipIdx_cons, flatMap_cons, map_append, prod_append, ih, map_cons, listing_cons]
      refine congrArg (· * _) ?_
      cases m with
      | zero => exact prod_singleton
      | succ m =>
        rw [if_neg m.succ_ne_zero, ← language_separated, language_seq]
        simp only [if_pos m.succ_pos]
  exact hfrom pairs 0

theorem prod_unlessEmpty (tail : FrontendExpr) : ((unlessEmpty tail).map (language env)).prod = tail.language env := by
  cases tail with
  | empty => exact language_empty.symm
  | _ => exact prod_singleton

theorem mem_propertyLists : word ∈ propertyLists min max additional ws env properties emitted
    ↔ ∃ pairs, Selects properties pairs ∧ word ∈ listing (separator ws env) emitted (pairs.map (language env))
      * propertyLists min max additional ws env [] (emitted + pairs.length) := by
  constructor
  · rintro ⟨pairs, extra, hs, he, hn, hw⟩
    rw [map_append, listing_append, length_map] at hw
    obtain ⟨a, ha, b, hb, rfl⟩ := mem_mul.mp hw
    rw [length_append, ← add_assoc] at hn
    exact ⟨pairs, hs, append_mem_mul ha (mem_propertyLists_nil.mpr ⟨extra, he, hn, hb⟩)⟩
  · rintro ⟨pairs, hs, hw⟩
    obtain ⟨a, ha, b, hb, rfl⟩ := mem_mul.mp hw
    obtain ⟨extra, he, hn, hb⟩ := mem_propertyLists_nil.mp hb
    refine ⟨pairs, extra, hs, he, by rwa [length_append, ← add_assoc], ?_⟩
    rw [map_append, listing_append, length_map]
    exact append_mem_mul ha hb

section Enumerate

variable (hcount : properties.length < 2 ^ 32) (hoptional : (optionalIndices properties).length < 64)
include hcount hoptional

theorem mem_alternatives {alternative : FrontendExpr} :
    alternative ∈ ((range (oneShl (optionalIndices properties).length)).filterMap fun selected =>
        (additionalTail (asU32 (selectPairs properties selected).length) min max additional ws).map fun tail =>
          seq (interspersePairs (selectPairs properties selected) ws ++ unlessEmpty tail))
      ↔ ∃ pairs, Selects properties pairs ∧ ∃ tail ∈ additionalTail pairs.length min max additional ws,
        alternative = seq (interspersePairs pairs ws ++ unlessEmpty tail) := by
  have hasU32 : ∀ selected, asU32 (pick properties selected).length = (pick properties selected).length := fun selected =>
    Nat.mod_eq_of_lt (length_pick_le.trans_lt hcount)
  simp only [mem_filterMap, mem_range, Option.map_eq_some_iff, selectPairs_eq hoptional.le, hasU32, oneShl_eq hoptional]
  constructor
  · rintro ⟨selected, -, tail, ht, rfl⟩
    exact ⟨_, selects_pick, tail, ht, rfl⟩
  · rintro ⟨pairs, hs, tail, ht, rfl⟩
    obtain ⟨selected, hlt, rfl⟩ := exists_pick hs 0
    exact ⟨selected, hlt, tail, ht, rfl⟩

/-- **Enumerating.** It fails where nothing can be written, and else means the lists. -/
theorem enumerateProperties_spec :
    (¬Reaches min max additional ws properties 0 ∧ enumerateProperties properties min max additional ws = .error unsatisfiable)
      ∨ (Reaches min max additional ws properties 0 ∧ ∃ expr, enumerateProperties properties min max additional ws = .ok expr
        ∧ ∀ env, expr.language env = propertyLists min max additional ws env properties 0) := by
  have hmem := @mem_alternatives min max additional ws properties hcount hoptional
  unfold enumerateProperties
  generalize ((range (oneShl (optionalIndices properties).length)).filterMap fun selected =>
        (additionalTail (asU32 (selectPairs properties selected).length) min max additional ws).map fun tail =>
          seq (interspersePairs (selectPairs properties selected) ws ++ unlessEmpty tail)) = alternatives at hmem
  have hreach : Reaches min max additional ws properties 0 ↔ alternatives ≠ [] := by
    refine ⟨fun ⟨pairs, hs, ht⟩ hnil => ?_, fun hne => ?_⟩
    · obtain ⟨tail, ht⟩ := Option.isSome_iff_exists.mp ht
      rw [zero_add] at ht
      have := hmem.mpr ⟨pairs, hs, tail, ht, rfl⟩
      rw [hnil] at this
      exact not_mem_nil this
    · obtain ⟨alternative, h⟩ := exists_mem_of_ne_nil _ hne
      obtain ⟨pairs, hs, tail, ht, -⟩ := hmem.mp h
      exact ⟨pairs, hs, Option.isSome_iff_exists.mpr ⟨tail, by rwa [zero_add]⟩⟩
  by_cases hnil : alternatives = []
  · exact .inl ⟨fun h => hreach.mp h hnil, if_pos (isEmpty_iff.mpr hnil)⟩
  · refine .inr ⟨hreach.mpr hnil, _, if_neg fun h => hnil (isEmpty_iff.mp h), fun env => ext_mem fun word => ?_⟩
    rw [language_choose hnil, mem_sum, mem_propertyLists]
    simp only [mem_map, exists_exists_and_eq_and, hmem, zero_add]
    constructor
    · rintro ⟨_, ⟨pairs, hs, tail, ht, rfl⟩, hw⟩
      rw [language_seq, map_append, prod_append, prod_interspersePairs, prod_unlessEmpty,
        additionalTail_spec.1 tail ht] at hw
      exact ⟨pairs, hs, hw⟩
    · rintro ⟨pairs, hs, hw⟩
      cases ht : additionalTail pairs.length min max additional ws with
      | none =>
        rw [additionalTail_spec.2 ht, mul_zero] at hw
        exact hw.elim
      | some tail =>
        refine ⟨_, ⟨pairs, hs, tail, ht, rfl⟩, ?_⟩
        rwa [language_seq, map_append, prod_append, prod_interspersePairs, prod_unlessEmpty,
          additionalTail_spec.1 tail ht]

end Enumerate

/-! ## One rule for each property -/

theorem freshNameFrom_fresh (names : Finset String) (hint : String) (counter : Nat) :
    (freshNameFrom names hint counter).1 ∉ names := by
  induction counter using freshNameFrom.induct names hint with
  | case1 counter _ hmem ih =>
    rw [freshNameFrom, dif_pos hmem]
    exact ih
  | case2 counter _ hmem =>
    rw [freshNameFrom, dif_neg hmem]
    exact hmem

/-- Rules of new and distinct names have been added. -/
structure Extends (before after : Converter) (added : List FrontendRule) : Prop where
  rules : after.rules = before.rules ++ added
  names : before.names ⊆ after.names
  fresh : ∀ rule ∈ added, rule.name ∉ before.names
  taken : ∀ rule ∈ added, rule.name ∈ after.names
  distinct : (added.map (·.name)).Nodup

theorem Extends.refl (converter : Converter) : Extends converter converter [] :=
  ⟨(append_nil _).symm, Finset.Subset.refl _, nofun, nofun, .nil⟩

theorem Extends.trans {c₁ c₂ c₃ : Converter} {a b : List FrontendRule} (h : Extends c₁ c₂ a) (h' : Extends c₂ c₃ b) :
    Extends c₁ c₃ (a ++ b) := by
  refine ⟨by rw [h'.rules, h.rules, append_assoc], h.names.trans h'.names, fun rule hr => ?_, fun rule hr => ?_, ?_⟩
  · rcases mem_append.mp hr with hr | hr
    · exact h.fresh rule hr
    · exact fun hn => h'.fresh rule hr (h.names hn)
  · rcases mem_append.mp hr with hr | hr
    · exact h'.names (h.taken rule hr)
    · exact h'.taken rule hr
  · rw [map_append]
    refine h.distinct.append h'.distinct fun name ha hb => ?_
    obtain ⟨rule, hr, rfl⟩ := mem_map.mp ha
    obtain ⟨rule', hr', he⟩ := mem_map.mp hb
    exact h'.fresh rule' hr' (he ▸ h.taken rule hr)

theorem defineFresh (converter : Converter) (hint : String) (body : FrontendExpr) :
    ∃ after, (converter.freshName hint).2.defineNamed (converter.freshName hint).1 body = .ok after
      ∧ Extends converter after [⟨(converter.freshName hint).1, body⟩] := by
  have hfresh := freshNameFrom_fresh converter.names hint converter.counter
  refine ⟨_, if_neg hfresh, rfl, Finset.subset_insert _ _, fun rule hr => ?_, fun rule hr => ?_, nodup_singleton _⟩
  · rw [mem_singleton.mp hr]
    exact hfresh
  · rw [mem_singleton.mp hr]
    exact Finset.mem_insert_self _ _

section Build

variable (min : Nat) (max : Option Nat) (additional : Option FrontendExpr) (ws : FrontendExpr)

/-- There is a result exactly where something can be written, and then it means the lists. -/
structure Right (properties : List Property) (emitted : Nat) (rules : List FrontendRule) (result : Option FrontendExpr) :
    Prop where
  reached : result.isSome ↔ Reaches min max additional ws properties emitted
  lists : ∀ expr ∈ result, ∀ env, Models env rules →
    expr.language env = propertyLists min max additional ws env properties emitted

/-- What has been built for the properties from some index on is right. -/
def MemoRight (all : List Property) (rules : List FrontendRule) (memo : Memo) : Prop :=
  ∀ index emitted result, memo.lookup (index, emitted) = some result →
    Right min max additional ws (all.drop index) emitted rules result

end Build

variable {all : List Property} {rules added : List FrontendRule} {memo : Memo} {result : Option FrontendExpr}

theorem Right.mono (h : Right min max additional ws properties emitted rules result) :
    Right min max additional ws properties emitted (rules ++ added) result :=
  ⟨h.reached, fun expr he env hm => h.lists expr he env fun rule hr => hm rule (mem_append_left _ hr)⟩

theorem MemoRight.mono (h : MemoRight min max additional ws all rules memo) :
    MemoRight min max additional ws all (rules ++ added) memo := fun index emitted result hl => (h index emitted result hl).mono

theorem MemoRight.insert (h : MemoRight min max additional ws all rules memo)
    (hr : Right min max additional ws (all.drop index) emitted rules result) :
    MemoRight min max additional ws all rules (memo.insert (index, emitted) result) := by
  intro index' emitted' result' hl
  by_cases he : (index', emitted') = (index, emitted)
  · cases he
    rw [Finmap.lookup_insert] at hl
    cases hl
    exact hr
  · rw [Finmap.lookup_insert_of_ne _ he] at hl
    exact h index' emitted' result' hl

theorem right_nil : Right min max additional ws [] emitted rules (additionalTail emitted min max additional ws) :=
  ⟨reaches_nil.symm, fun tail ht _ _ => additionalTail_spec.1 tail ht⟩

theorem right_over (h : max.any (· < emitted) = true) : Right min max additional ws properties emitted rules none := by
  obtain ⟨m, hm, hlt⟩ := any_lt.mp h
  exact ⟨⟨nofun, fun hr => absurd hr (not_reaches_over hm hlt)⟩, nofun⟩

theorem Right.sum (h : Right min max additional ws properties emitted rules result) (hm : Models env rules) :
    (result.toList.map (language env)).sum = propertyLists min max additional ws env properties emitted := by
  cases result with
  | none => exact (propertyLists_unreached fun hr => nomatch h.reached.mpr hr).symm
  | some expr => exact sum_singleton.trans (h.lists expr rfl env hm)

/-- After one pair more; without bounds any number of pairs counts as one. -/
theorem Right.next {next : Nat} (h : Right min max additional ws properties next rules result)
    (hnext : next = emitted + 1 ∨ next = 1 ∧ min = 0 ∧ max = none) :
    Right min max additional ws properties (emitted + 1) rules result := by
  rcases hnext with rfl | ⟨rfl, hmin, hmax⟩
  · exact h
  · refine ⟨h.reached.trans ⟨fun _ => reaches_unbounded hmin hmax, fun _ => reaches_unbounded hmin hmax⟩, fun expr he env hm => ?_⟩
    rw [propertyLists_collapse hmin hmax]
    exact h.lists expr he env hm

section Cons

variable {skipped taken : Option FrontendExpr}
  (hskipped : if property.required then skipped = none else Right min max additional ws properties emitted rules skipped)
  (htaken : Right min max additional ws properties (emitted + 1) rules taken)
include hskipped htaken

theorem alternatives_reached : (stateAlternatives emitted ws property skipped taken).isEmpty = false
    ↔ Reaches min max additional ws (property :: properties) emitted := by
  have hsome : skipped.isSome ↔ property.required = false ∧ Reaches min max additional ws properties emitted := by
    by_cases hr : property.required = true
    · rw [if_pos hr] at hskipped
      rw [hskipped, hr]
      exact ⟨nofun, fun h => Bool.noConfusion h.1⟩
    · rw [if_neg hr] at hskipped
      exact hskipped.reached.trans ⟨fun h => ⟨Bool.eq_false_iff.mpr hr, h⟩, And.right⟩
  rw [reaches_cons, ← htaken.reached, ← hsome]
  cases skipped with
  | none => cases taken <;> exact ⟨fun h => by cases h <;> exact .inr rfl, fun h => by cases h <;> first | rfl | contradiction⟩
  | some _ => exact ⟨fun _ => .inl rfl, fun _ => rfl⟩

/-- The results for the lists without a property and for those after it make the one for the lists with it. -/
theorem alternatives_sum (hm : Models env rules) : ((stateAlternatives emitted ws property skipped taken).map (language env)).sum
    = propertyLists min max additional ws env (property :: properties) emitted := by
  have hsum := htaken.sum hm
  unfold stateAlternatives
  rw [map_append, sum_append, propertyLists_cons, ← hsum]
  refine congrArg₂ (· + ·) ?_ ?_
  · split
    · next hr =>
        rw [if_pos hr] at hskipped
        rw [hskipped]
        rfl
    · next hr =>
        rw [if_neg hr] at hskipped
        exact hskipped.sum hm
  · cases taken with
    | none => exact (mul_zero _).symm
    | some rest =>
      simp only [Option.map_some, Option.toList_some, map_cons, map_nil, sum_singleton, language_seq,
        prod_cons, prod_nil, mul_one]

end Cons

section Run

variable {origin : Converter}

/-- A rule for alternatives that mean the lists means the lists. -/
theorem defineState_spec (hint : String) {alternatives : List FrontendExpr} (hext : Extends origin converter rules)
    (hreached : alternatives.isEmpty = false ↔ Reaches min max additional ws properties emitted)
    (hsum : ∀ env, Models env rules →
      (alternatives.map (language env)).sum = propertyLists min max additional ws env properties emitted) :
    Sound (fun _ => False) (fun out => ∃ added, Extends origin out.2 (rules ++ added)
      ∧ Right min max additional ws properties emitted (rules ++ added) out.1) (converter.defineState hint alternatives) := by
  unfold Converter.defineState
  by_cases hempty : alternatives.isEmpty = true
  · rw [if_pos hempty]
    refine ⟨[], by rwa [append_nil], ⟨nofun, fun hr => ?_⟩, nofun⟩
    rw [hreached.mpr hr] at hempty
    cases hempty
  · rw [if_neg hempty]
    obtain ⟨after, hdefine, hnew⟩ := defineFresh converter hint (choose alternatives)
    have hsound : Sound (fun _ => False) (fun c => c = after)
        ((converter.freshName hint).2.defineNamed (converter.freshName hint).1 (choose alternatives)) := by
      rw [hdefine]
      rfl
    refine hsound.map ?_
    rintro _ rfl
    refine ⟨_, hext.trans hnew, ⟨fun _ => hreached.mp (Bool.eq_false_iff.mpr hempty), fun _ => rfl⟩, fun expr he env hm => ?_⟩
    obtain rfl := Option.mem_some.mp he
    rw [language_ruleRef, ← hsum env fun rule hr => hm rule (mem_append_left _ hr),
      ← language_choose fun hnil => hempty (isEmpty_iff.mpr hnil)]
    exact hm _ (mem_append_right _ (mem_singleton_self _))

theorem nextEmitted_cases (h : emitted + 1 < 2 ^ 32) :
    (if min = 0 && max.isNone then 1 else asU32 (emitted + 1)) = emitted + 1
      ∨ (if min = 0 && max.isNone then 1 else asU32 (emitted + 1)) = 1 ∧ min = 0 ∧ max = none := by
  split
  · next hb =>
      rw [Bool.and_eq_true, decide_eq_true_eq, Option.isNone_iff_eq_none] at hb
      exact .inr ⟨rfl, hb⟩
  · exact .inl (Nat.mod_eq_of_lt h)

/-- What a call leaves: more rules since `origin`, a result that is right, and a memo that still is. -/
def Built (min : Nat) (max : Option Nat) (additional : Option FrontendExpr) (ws : FrontendExpr) (origin : Converter)
    (rules : List FrontendRule) (all : List Property) (result : List FrontendRule → Option FrontendExpr → Prop)
    (out : Option FrontendExpr × Converter × Memo) : Prop :=
  ∃ added, Extends origin out.2.1 (rules ++ added) ∧ result (rules ++ added) out.1
    ∧ MemoRight min max additional ws all (rules ++ added) out.2.2

theorem built_same {P : List FrontendRule → Option FrontendExpr → Prop}
    (hext : Extends origin converter rules) (hmemo : MemoRight min max additional ws all rules memo) (hresult : P rules result) :
    Built min max additional ws origin rules all P (result, converter, memo) := by
  refine ⟨[], ?_⟩
  rw [append_nil]
  exact ⟨hext, hresult, hmemo⟩

/-- **One rule for each property.** Every call gives what is right for it and keeps the memo so. -/
theorem buildPropertyState_spec (hint : String) : ∀ {properties : List Property} {index emitted : Nat} {converter : Converter}
    {memo : Memo} {rules : List FrontendRule}, all.drop index = properties → emitted + properties.length < 2 ^ 32 →
    Extends origin converter rules → MemoRight min max additional ws all rules memo →
    Sound (fun _ => False)
      (Built min max additional ws origin rules all (Right min max additional ws properties emitted))
      (buildPropertyState hint min max additional ws properties index emitted converter memo) := by
  intro properties
  induction properties with
  | nil =>
    intro index emitted converter memo rules hdrop hbound hext hmemo
    rw [buildPropertyState]
    by_cases hover : max.any (· < emitted) = true
    · rw [if_pos hover]
      exact built_same hext hmemo (right_over hover)
    · rw [if_neg hover]
      cases hl : memo.lookup (index, emitted) with
      | some cached => exact built_same hext hmemo (hdrop ▸ hmemo index emitted cached hl)
      | none => exact built_same hext (hmemo.insert (hdrop ▸ right_nil)) right_nil
  | cons property properties ih =>
    intro index emitted converter memo rules hdrop hbound hext hmemo
    rw [length_cons] at hbound
    have hnextDrop : all.drop (index + 1) = properties := by
      rw [← drop_drop, hdrop]
      rfl
    rw [buildPropertyState]
    by_cases hover : max.any (· < emitted) = true
    · rw [if_pos hover]
      exact built_same hext hmemo (right_over hover)
    · rw [if_neg hover]
      cases hl : memo.lookup (index, emitted) with
      | some cached => exact built_same hext hmemo (hdrop ▸ hmemo index emitted cached hl)
      | none =>
        -- first without the property, which must then be optional
        refine Sound.bind (P := Built min max additional ws origin rules all fun rules skipped =>
          if property.required then skipped = none
          else Right min max additional ws properties emitted rules skipped) ?_ ?_
        · by_cases hr : property.required = true
          · simp only [if_pos hr]
            exact @built_same _ _ _ _ _ _ _ _ _ _ (fun _ skipped => skipped = none) hext hmemo rfl
          · simp only [if_neg hr]
            exact ih hnextDrop (by omega) hext hmemo
        · rintro ⟨skipped, c₁, m₁⟩ ⟨a₁, hext₁, hskipped, hmemo₁⟩
          -- then with it, if one pair more is allowed
          refine Sound.bind (P := Built min max additional ws origin (rules ++ a₁) all
            (Right min max additional ws properties (emitted + 1))) ?_ ?_
          · have hnext := @nextEmitted_cases min max emitted (by omega)
            split
            · refine (ih hnextDrop (by omega) hext₁ hmemo₁).mono fun out ⟨added, he, hr, hm⟩ => ⟨added, he, hr.next hnext, hm⟩
            · next hall =>
                refine built_same hext₁ hmemo₁ (right_over ?_)
                cases max with
                | none => exact absurd rfl hall
                | some m => exact decide_eq_true (Nat.lt_succ_of_le (not_lt.mp fun h => hall (decide_eq_true h)))
          · rintro ⟨taken, c₂, m₂⟩ ⟨a₂, hext₂, htaken, hmemo₂⟩
            have hskipped' : if property.required then skipped = none
                else Right min max additional ws properties emitted (rules ++ a₁ ++ a₂) skipped := by
              split
              · next hr => rwa [if_pos hr] at hskipped
              · next hr =>
                  rw [if_neg hr] at hskipped
                  exact hskipped.mono
            refine (defineState_spec _ hext₂ (alternatives_reached hskipped' htaken)
              fun env hm => alternatives_sum hskipped' htaken hm).bind ?_
            rintro ⟨result, c₃⟩ ⟨a₃, hext₃, hright⟩
            refine ⟨a₁ ++ (a₂ ++ a₃), ?_⟩
            rw [← append_assoc, ← append_assoc]
            exact ⟨hext₃, hright, hmemo₂.mono.insert (hdrop ▸ hright)⟩

end Run

/-! ## Both ways -/

/-- Both ways find that nothing can be written, and there are no lists; or both mean the lists, whatever the
names of other rules stand for, under every meaning of the rules that the second way adds. -/
def Agree (hint : String) (converter : Converter) (properties : List Property) (min : Nat) (max : Option Nat)
    (additional : Option FrontendExpr) (ws : FrontendExpr) : Prop :=
  (enumerateProperties properties min max additional ws = .error unsatisfiable
    ∧ (∃ after memo, buildPropertyState hint min max additional ws properties 0 0 converter ∅ = .ok (none, after, memo))
    ∧ ∀ env, propertyLists min max additional ws env properties 0 = 0)
  ∨ ∃ (expr state : FrontendExpr) (after : Converter) (memo : Memo) (added : List FrontendRule), enumerateProperties properties min max additional ws = .ok expr
    ∧ buildPropertyState hint min max additional ws properties 0 0 converter ∅ = .ok (some state, after, memo)
    ∧ after.rules = converter.rules ++ added ∧ (∀ rule ∈ added, rule.name ∉ converter.names)
    ∧ (∀ env, Models env added → expr.language env = propertyLists min max additional ws env properties 0
      ∧ state.language env = propertyLists min max additional ws env properties 0)
    ∧ ∀ base : Env, ∃ env, Models env added ∧ ∀ name, (∀ rule ∈ added, rule.name ≠ name) → env name = base name

theorem buildPropertyState_right (hint : String) (converter : Converter) (hcount : properties.length < 2 ^ 32) :
    ∃ result after memo added,
      buildPropertyState hint min max additional ws properties 0 0 converter ∅ = .ok (result, after, memo)
      ∧ Extends converter after added ∧ Right min max additional ws properties 0 added result := by
  have hrun : Sound _ _ (buildPropertyState hint min max additional ws properties 0 0 converter ∅) :=
    buildPropertyState_spec hint rfl (by rwa [zero_add]) (.refl converter) fun _ _ _ hl => by
      rw [Finmap.lookup_empty] at hl
      cases hl
  obtain ⟨⟨result, after, memo⟩, hbuild, added, hext, hright, -⟩ := hrun.exists_ok
  exact ⟨result, after, memo, added, hbuild, hext, hright⟩

/-- **The two ways of writing optional properties agree.** -/
theorem property_ways_agree (hint : String) (converter : Converter) (properties : List Property) (min : Nat)
    (max : Option Nat) (additional : Option FrontendExpr) (ws : FrontendExpr) (hcount : properties.length < 2 ^ 32)
    (hoptional : (optionalIndices properties).length < 64) : Agree hint converter properties min max additional ws := by
  obtain ⟨result, after, memo, added, hbuild, hext, hright⟩ := @buildPropertyState_right min max additional ws properties
    hint converter hcount
  rcases @enumerateProperties_spec min max additional ws properties hcount hoptional with ⟨hnot, herr⟩ | ⟨hreach, expr, hok, hlists⟩
  · obtain rfl : result = none := Option.not_isSome_iff_eq_none.mp fun h => hnot (hright.reached.mp h)
    exact .inl ⟨herr, ⟨after, memo, hbuild⟩, fun env => propertyLists_unreached hnot⟩
  · obtain ⟨state, rfl⟩ := Option.isSome_iff_exists.mp (hright.reached.mpr hreach)
    refine .inr ⟨expr, state, after, memo, added, hok, hbuild, hext.rules, hext.fresh, fun env hm => ⟨hlists env, ?_⟩, fun base => ?_⟩
    · exact hright.lists state rfl env hm
    · exact ⟨meaning added base, meaning_models base hext.distinct, fun name => meaning_other⟩

/-- Nine optional properties, of which at most two may be there. -/
theorem property_ways_agree_nine :
    Agree "root" ⟨[], ∅, 0⟩ (List.replicate 9 ⟨lit "p", false⟩) 1 (some 2) (some (lit "q")) (.ruleRef "__json_ws") :=
  property_ways_agree _ _ _ _ _ _ _ (by decide) (by decide)

/-! ## Counting in machine words -/

theorem selects_all : ∀ properties : List Property, Selects properties (properties.map (·.pair))
  | [] => .nil
  | _ :: properties => .take (selects_all properties)

/-- Where all properties are required there is one selection. -/
theorem all_required (h : ∀ property ∈ properties, property.required = true) (index selected : Nat) :
    optionalFrom index properties = [] ∧ pick properties selected = properties.map (·.pair) := by
  induction properties generalizing index with
  | nil => exact ⟨rfl, rfl⟩
  | cons property properties ih =>
    have hr := h property mem_cons_self
    obtain ⟨hnone, hpick⟩ := ih (fun p hp => h p (mem_cons_of_mem _ hp)) (index + 1)
    rw [optionalFrom_cons, if_pos hr, hnone, pick_required hr, hpick]
    exact ⟨rfl, rfl⟩

/-- As many required pairs as 32 bits count come to none. -/
theorem enumerate_wrapped (h : ∀ property ∈ properties, property.required = true) (hlen : properties.length = 2 ^ 32) :
    ∃ expr, enumerateProperties properties 0 (some 0) none ws = .ok expr := by
  obtain ⟨hnone, hpick⟩ := all_required h 0 0
  change optionalIndices properties = [] at hnone
  have hselect : selectPairs properties 0 = properties.map (·.pair) :=
    (selectPairs_eq (by rw [hnone]; exact Nat.zero_le _)).trans hpick
  have hcount : asU32 (selectPairs properties 0).length = 0 := by
    rw [hselect, length_map, hlen]
    rfl
  have hrange : range (oneShl (optionalIndices properties).length) = [0] := by
    rw [hnone]
    rfl
  unfold enumerateProperties
  rw [hrange]
  simp only [filterMap_cons, filterMap_nil, hcount]
  exact ⟨_, rfl⟩

/-- A subset is a word of bits, and with as many optional properties as the word has bits the shift that counts
the subsets comes back to one; pairs are counted in 32 bits, and all of them may count as none. -/
theorem property_ways_disagree : ¬Agree "root" ⟨[], ∅, 0⟩ (List.replicate 64 ⟨lit "p", false⟩) 1 none none .empty
      ∧ ¬Agree "root" ⟨[], ∅, 0⟩ (List.replicate (2 ^ 32) ⟨lit "p", true⟩) 0 (some 0) none .empty := by
  constructor
  · have hreach : Reaches 1 none none .empty (replicate 64 ⟨lit "p", false⟩) 0 := ⟨_, selects_all _, rfl⟩
    rintro (⟨-, ⟨after, memo, hnone⟩, -⟩ | ⟨expr, state, after, memo, added, hok, -⟩)
    · obtain ⟨result, after', memo', added, hbuild, -, hright⟩ := @buildPropertyState_right 1 none none .empty
        (replicate 64 ⟨lit "p", false⟩) "root" ⟨[], ∅, 0⟩ (by decide)
      rw [hnone] at hbuild
      cases hbuild
      exact nomatch hright.reached.mpr hreach
    · cases hok
  · have hrequired : ∀ property ∈ replicate (2 ^ 32) (⟨lit "p", true⟩ : Property), property.required = true :=
      fun property hp => by rw [eq_of_mem_replicate hp]
    have hbuild : ∀ properties : List Property, ∃ after memo, buildPropertyState "root" 0 (some 0) none .empty
        (⟨lit "p", true⟩ :: properties) 0 0 ⟨[], ∅, 0⟩ ∅ = .ok (none, after, memo) := fun properties => ⟨_, _, rfl⟩
    obtain ⟨expr, hok⟩ := @enumerate_wrapped .empty _ hrequired length_replicate
    have hcons : replicate (2 ^ 32) (⟨lit "p", true⟩ : Property)
        = ⟨lit "p", true⟩ :: replicate (2 ^ 32 - 1) ⟨lit "p", true⟩ := replicate_succ
    obtain ⟨after, memo, hnone⟩ := hbuild (replicate (2 ^ 32 - 1) ⟨lit "p", true⟩)
    rw [← hcons] at hnone
    rintro (⟨herr, -⟩ | ⟨expr, state, after, memo, added, -, hsome, -⟩)
    · rw [hok] at herr
      cases herr
    · rw [hnone] at hsome
      cases hsome

end Pie.Proof.Properties
