import Pie.Lib.Loops
import Pie.Poem.Stream

/-!
# Hazards

When two regions may not change places: one writes what the other reads or
writes, they share a cache in a class, or one of them is a collective. Every
such pair is an edge of the schedule, and every edge a path of its closure.
-/

namespace Pie.Proof.Streams

open List Option Pie.Poem Lib Ordered

/-! ## What values stand for -/

/-- An arm of a merge. -/
def Arm (trace : Trace) (arm merge : ValueId) : Prop :=
  ∃ armList, trace.defn merge = some (.merge armList) ∧ arm ∈ armList.map Prod.fst

/-- No merge is its own arm, nor an arm of its arms. -/
def Acyclic (trace : Trace) : Prop := ∀ v, ¬Relation.TransGen (Arm trace) v v

/-- A value that is no merge stands for itself, a merge for what its arms stand for. -/
inductive Stands (trace : Trace) : ValueId → ValueId → Prop
  | self {v : ValueId} {d : Def} (h : trace.defn v = some d) (hm : ∀ armList, d ≠ .merge armList) : Stands trace v v
  | arm {a m v : ValueId} (ha : Arm trace a m) (hv : Stands trace a v) : Stands trace m v

/-- All that a value stands for was found. -/
def Found (trace : Trace) (v : ValueId) (l : List ValueId) : Prop := ∀ x, Stands trace v x → x ∈ l

/-- The value has an entry. -/
def At (through : Through) (v : ValueId) (l : List ValueId) : Prop := through[v]? = some (some l)

/-- How many values have none. -/
def unset (through : Through) : Nat := through.countP Option.isNone

/-- Entries stay, and those that are new are complete. -/
structure Grows (trace : Trace) (through through' : Through) : Prop where
  length : through'.length = through.length
  old : ∀ v l, At through v l → At through' v l
  new : ∀ v l, At through' v l → At through v l ∨ Found trace v l

theorem Grows.refl (trace : Trace) (through : Through) : Grows trace through through :=
  ⟨rfl, fun _ _ h => h, fun _ _ h => .inl h⟩

variable {trace : Trace} {l : List ValueId} {v : ValueId}

theorem Grows.trans {a b c : Through} (hab : Grows trace a b) (hbc : Grows trace b c) : Grows trace a c := by
  refine ⟨hbc.length.trans hab.length, fun v l h => hbc.old v l (hab.old v l h), fun v l h => ?_⟩
  rcases hbc.new v l h with h | h
  · exact hab.new v l h
  · exact .inr h

theorem arms_of_at {through : Through} (h : At through v l) : arms through v = l := by
  unfold arms
  rw [h]

theorem unset_le {a b : Through} (h : Grows trace a b) : unset b ≤ unset a := by
  have key : ∀ (a b : Through), b.length = a.length → (∀ v l, At a v l → At b v l) → unset b ≤ unset a := by
    intro a
    induction a with
    | nil =>
      intro b hlen _
      rw [length_eq_zero_iff.mp hlen]
    | cons x a ih =>
      intro b hlen hold
      cases b with
      | nil => exact Nat.zero_le _
      | cons y b =>
        have htail := ih b (Nat.succ.inj hlen) (fun v l hv => hold (v + 1) l hv)
        unfold unset at htail ⊢
        rw [countP_cons, countP_cons]
        cases x with
        | none =>
          rw [if_pos (show (none : Option (List ValueId)).isNone = true from rfl)]
          split <;> omega
        | some l =>
          have hy : y = some l := some.inj (hold 0 l rfl)
          rw [hy, if_neg (show ¬(some l).isNone = true from Bool.false_ne_true)]
          exact htail
  exact key a b h.length h.old

theorem unset_set {through : Through} (hv : v < through.length)
    (hnone : ∀ l, ¬At through v l) : unset (through.set v (some l)) + 1 = unset through := by
  induction through generalizing v with
  | nil => cases hv
  | cons x through ih =>
    cases v with
    | zero =>
      cases x with
      | some l => exact absurd rfl (hnone l)
      | none =>
        unfold unset
        rw [set_cons_zero, countP_cons, countP_cons]
        rfl
    | succ v =>
      have := ih (Nat.lt_of_succ_lt_succ hv) (fun l hl => hnone l hl)
      unfold unset at this ⊢
      rw [set_cons_succ, countP_cons, countP_cons]
      omega

theorem lt_of_defn {d : Def} (h : trace.defn v = some d) : v < trace.values.length := by
  unfold Trace.defn at h
  rw [map_eq_some_iff] at h
  obtain ⟨_, h, _⟩ := h
  exact (List.getElem?_eq_some_iff.mp h).1

theorem at_set {through : Through} {v w : ValueId} {l l' : List ValueId} (hv : v < through.length) :
    At (through.set v (some l)) w l' ↔ (w = v ∧ l' = l) ∨ (w ≠ v ∧ At through w l') := by
  unfold At
  rw [getElem?_set]
  by_cases h : v = w
  · subst h
    rw [if_pos rfl, if_pos hv]
    simp [eq_comm]
  · rw [if_neg h]
    simp [Ne.symm h]

theorem resolve_at {fuel : Nat} {through : Through} {value : ValueId}
    (h : At through value l) : resolve trace (fuel + 1) through value = through := by
  unfold resolve
  rw [h]

theorem resolve_unset {fuel : Nat} {through : Through} {value : ValueId} (h : ∀ l, ¬At through value l) :
    resolve trace (fuel + 1) through value = enter trace (resolve trace fuel) through value := by
  unfold resolve
  split
  · rename_i l hl
    exact absurd hl (h l)
  · rfl

/-- The arms of a merge are found in turn, when each of them is. -/
theorem resolveArms_grows {find : Through → ValueId → Through} {through : Through} {armList : List (ValueId × Guard)}
    (hfind : ∀ t, Grows trace through t → ∀ arm ∈ armList, Grows trace t (find t arm.1)
      ∧ ∀ d, trace.defn arm.1 = some d → ∃ l, At (find t arm.1) arm.1 l ∧ Found trace arm.1 l) :
    Grows trace through (resolveArms find armList through).1
      ∧ ∀ arm ∈ armList, Found trace arm.1 (resolveArms find armList through).2 := by
  have key : ∀ (rest : List (ValueId × Guard)) (st : Through × List ValueId), (∀ arm ∈ rest, arm ∈ armList) →
      Grows trace through st.1 →
      let st' := rest.foldl (fun st arm =>
        let through := find st.1 arm.1
        (through, st.2 ++ arms through arm.1)) st
      Grows trace through st'.1 ∧ (∀ x ∈ st.2, x ∈ st'.2) ∧ ∀ arm ∈ rest, Found trace arm.1 st'.2 := by
    intro rest
    induction rest with
    | nil => exact fun st _ hg => ⟨hg, fun _ hx => hx, nofun⟩
    | cons arm rest ih =>
      intro st hsub hg
      obtain ⟨hstep, hat⟩ := hfind st.1 hg arm (hsub arm mem_cons_self)
      obtain ⟨h1, h2, h3⟩ := ih (find st.1 arm.1, st.2 ++ arms (find st.1 arm.1) arm.1)
        (fun a ha => hsub a (mem_cons_of_mem _ ha)) (hg.trans hstep)
      refine ⟨h1, fun x hx => h2 x (mem_append_left _ hx), forall_mem_cons.mpr ⟨fun x hx => ?_, h3⟩⟩
      have hdef : ∃ d, trace.defn arm.1 = some d := by
        cases hx with
        | self h _ => exact ⟨_, h⟩
        | arm ha _ =>
          obtain ⟨l, h, _⟩ := ha
          exact ⟨_, h⟩
      obtain ⟨d, hd⟩ := hdef
      obtain ⟨l, hl, hfound⟩ := hat d hd
      refine h2 x (mem_append_right _ ?_)
      rw [arms_of_at hl]
      exact hfound x hx
  obtain ⟨h1, -, h3⟩ := key armList (through, []) (fun _ h => h) (Grows.refl trace through)
  exact ⟨h1, h3⟩

/-- **Resolving a value finds all it stands for**, by induction on how many values have no entry yet. What
the search meets again on its way is complete, since no merge leads back to itself. -/
theorem resolve_grows (hacyclic : Acyclic trace) : ∀ {fuel : Nat} {through : Through} {value : ValueId},
    through.length = trace.values.length → unset through ≤ fuel →
    (∀ v l, Relation.ReflTransGen (Arm trace) v value → At through v l → Found trace v l) →
      Grows trace through (resolve trace fuel through value)
        ∧ ∀ d, trace.defn value = some d → ∃ l, At (resolve trace fuel through value) value l ∧ Found trace value l := by
  intro fuel
  induction fuel with
  | zero =>
    intro through value hlen hfuel hdone
    refine ⟨Grows.refl trace through, fun d hd => ?_⟩
    have hlt : value < through.length := hlen ▸ lt_of_defn hd
    cases hx : through[value]? with
    | none => exact absurd (List.getElem?_eq_none_iff.mp hx) (not_le.mpr hlt)
    | some x =>
      cases x with
      | some l => exact ⟨l, hx, hdone value l .refl hx⟩
      | none =>
        have hpos : 0 < unset through :=
          countP_pos_iff.mpr ⟨none, mem_of_getElem? hx, rfl⟩
        omega
  | succ fuel ih =>
    intro through value hlen hfuel hdone
    by_cases hset : ∃ l, At through value l
    · obtain ⟨l, hl⟩ := hset
      rw [resolve_at hl]
      exact ⟨Grows.refl trace through, fun _ _ => ⟨l, hl, hdone value l .refl hl⟩⟩
    · have hnone : ∀ l, ¬At through value l := fun l hl => hset ⟨l, hl⟩
      rw [resolve_unset hnone]
      unfold enter
      split
      · rename_i hd
        exact ⟨Grows.refl trace through, fun d h => (nomatch hd.symm.trans h)⟩
      · rename_i armList hd
        have hlt : value < through.length := hlen ▸ lt_of_defn hd
        have harm : ∀ arm ∈ armList, Arm trace arm.1 value :=
          fun arm ha => ⟨armList, hd, mem_map_of_mem ha⟩
        obtain ⟨hgrow, hfound⟩ := @resolveArms_grows trace (resolve trace fuel) (through.set value (some [value]))
          armList (by
            intro t hg arm ha
            refine ih (hg.length.trans (length_set.trans hlen)) ?_ ?_
            · have h1 := unset_le hg
              have h2 := unset_set (l := [value]) hlt hnone
              omega
            · intro v l hv hat
              rcases hg.new v l hat with hold | hnew
              · rcases (at_set hlt).mp hold with ⟨rfl, -⟩ | ⟨-, hold⟩
                · exact absurd (Relation.TransGen.tail' hv (harm arm ha)) (hacyclic v)
                · exact hdone v l (hv.tail (harm arm ha)) hold
              · exact hnew)
        have hall : Found trace value (normal
            (resolveArms (resolve trace fuel) armList (through.set value (some [value]))).2) := by
          intro x hx
          cases hx with
          | self h hm => exact absurd (some.inj (h.symm.trans hd)) (hm armList)
          | arm ha hv =>
            obtain ⟨armList', h, hmem⟩ := ha
            obtain rfl : armList' = armList := Def.merge.inj (some.inj (h.symm.trans hd))
            obtain ⟨arm, harm, rfl⟩ := mem_map.mp hmem
            exact mem_normal.mpr (hfound arm harm x hv)
        have hother : ∀ v l, v ≠ value →
            (At (resolveArms (resolve trace fuel) armList (through.set value (some [value]))).1 v l →
              At through v l ∨ Found trace v l) := by
          intro v l hne hat
          rcases hgrow.new v l hat with hold | hnew
          · exact .inl ((at_set hlt).mp hold |>.resolve_left (fun h => hne h.1)).2
          · exact .inr hnew
        have hold : ∀ v l, At through v l →
            v ≠ value ∧ At (resolveArms (resolve trace fuel) armList (through.set value (some [value]))).1 v l := by
          intro v l hv
          have hne : v ≠ value := by
            rintro rfl
            exact hnone l hv
          exact ⟨hne, hgrow.old v l ((at_set hlt).mpr (.inr ⟨hne, hv⟩))⟩
        have hlt' : value < (resolveArms (resolve trace fuel) armList
            (through.set value (some [value]))).1.length := by
          rw [hgrow.length, length_set]
          exact hlt
        dsimp only
        split
        · rename_i hempty
          -- a merge that stands for nothing keeps its own name
          have hat := hgrow.old value [value] ((at_set hlt).mpr (.inl ⟨rfl, rfl⟩))
          have hany : ∀ l, Found trace value l := by
            intro l x hx
            have := hall x hx
            rw [hempty] at this
            cases this
          refine ⟨⟨hgrow.length.trans length_set, fun v l hv => (hold v l hv).2, fun v l hv => ?_⟩,
            fun _ _ => ⟨[value], hat, hany _⟩⟩
          by_cases hne : v = value
          · subst hne
            exact .inr (hany l)
          · exact hother v l hne hv
        · refine ⟨⟨length_set.trans (hgrow.length.trans length_set), fun v l hv => ?_, fun v l hv => ?_⟩,
            fun _ _ => ⟨_, (at_set hlt').mpr (.inl ⟨rfl, rfl⟩), hall⟩⟩
          · exact (at_set hlt').mpr (.inr (hold v l hv))
          · rcases (at_set hlt').mp hv with ⟨rfl, rfl⟩ | ⟨hne, hv⟩
            · exact .inr hall
            · exact hother v l hne hv
      · rename_i d hmerge hd
        have hlt : value < through.length := hlen ▸ lt_of_defn hd
        have hself : Found trace value [value] := by
          intro x hx
          cases hx with
          | self _ _ => exact mem_singleton_self _
          | arm ha _ =>
            obtain ⟨armList, h, _⟩ := ha
            exact absurd (some.inj (hd.symm.trans h)) (hmerge armList)
        refine ⟨⟨length_set, fun v l hv => ?_, fun v l hv => ?_⟩, fun _ _ => ⟨[value], ?_, hself⟩⟩
        · refine (at_set hlt).mpr (.inr ⟨?_, hv⟩)
          rintro rfl
          exact hnone l hv
        · rcases (at_set hlt).mp hv with ⟨rfl, rfl⟩ | ⟨_, hv⟩
          · exact .inr hself
          · exact .inl hv
        · exact (at_set hlt).mpr (.inl ⟨rfl, rfl⟩)

theorem throughOf_found (hacyclic : Acyclic trace) {v x : ValueId} (h : Stands trace v x) :
    x ∈ arms (throughOf trace) v := by
  have hempty : ∀ v l, ¬At (replicate trace.values.length none) v l := by
    intro v l hat
    unfold At at hat
    rw [getElem?_replicate] at hat
    split at hat
    · cases hat
    · cases hat
  have hrun := @foldl_range_rule _ (resolve trace trace.values.length)
    (fun k t => Grows trace (replicate trace.values.length none) t
      ∧ ∀ v < k, ∀ d, trace.defn v = some d → ∃ l, At t v l)
    _ ⟨Grows.refl trace _, fun v hv => absurd hv (Nat.not_lt_zero v)⟩ trace.values.length (by
      rintro k hk t ⟨hg, hat⟩
      have hfound : ∀ v l, At t v l → Found trace v l :=
        fun v l hv => (hg.new v l hv).resolve_left (hempty v l)
      obtain ⟨hstep, hnew⟩ := @resolve_grows trace hacyclic trace.values.length t k
        (hg.length.trans length_replicate) (countP_le_length.trans (by rw [hg.length, length_replicate]))
        (fun v l _ hv => hfound v l hv)
      refine ⟨hg.trans hstep, fun v hv d hd => ?_⟩
      rcases Nat.lt_succ_iff_lt_or_eq.mp hv with hv | rfl
      · obtain ⟨l, hl⟩ := hat v hv d hd
        exact ⟨l, hstep.old v l hl⟩
      · obtain ⟨l, hl, -⟩ := hnew d hd
        exact ⟨l, hl⟩)
  have hdef : ∃ d, trace.defn v = some d := by
    cases h with
    | self h _ => exact ⟨_, h⟩
    | arm ha _ =>
      obtain ⟨l, h, _⟩ := ha
      exact ⟨_, h⟩
  obtain ⟨d, hd⟩ := hdef
  obtain ⟨l, hl⟩ := hrun.2 v (lt_of_defn hd) d hd
  have hfound := (hrun.1.new v l hl).resolve_left (hempty v l)
  rw [show arms (throughOf trace) v = l from arms_of_at hl]
  exact hfound x h

/-! ## Conflicts -/

/-- The caches of a trace: the keys and values of one space are one cache, a state is one of its own. -/
inductive Space where
  | kv (space : Nat)
  | state (row : Nat)

def spaceNamed (trace : Trace) (v : ValueId) : Option Space :=
  match trace.defn v with
  | some (.cache row) =>
    match trace.caches[row]? with
    | some (.kv space) => some (.kv space)
    | _ => some (.state row)
  | _ => none

section

variable (trace : Trace) (region : Region)

/-- The region reads the value, itself or as what a merge stands for. -/
def ReadsValue (v : ValueId) : Prop := ∃ node ∈ nodesOf trace region, ∃ i ∈ node.op.inputs, Stands trace i v

def WritesValue (v : ValueId) : Prop := ∃ node ∈ nodesOf trace region, v ∈ node.op.outputs

def TouchesSpace (space : Space) : Prop :=
  ∃ v, (ReadsValue trace region v ∨ WritesValue trace region v) ∧ spaceNamed trace v = some space

def HoldsCollective : Prop := ∃ node ∈ nodesOf trace region, node.op.family = .collective

def IsExclusive (profile : DeviceProfile) : Prop := ∃ node ∈ nodesOf trace region, node.op.name ∈ profile.exclusive

end

/-- Two regions that may not run side by side. -/
inductive Conflict (trace : Trace) (profile : DeviceProfile) (a b : Region) : Prop
  | value {v : ValueId} (hv : spaceNamed trace v = none)
      (h : (WritesValue trace a v ∧ (ReadsValue trace b v ∨ WritesValue trace b v))
        ∨ (ReadsValue trace a v ∧ WritesValue trace b v))
  | space {space : Space} {c : Nat} (ha : TouchesSpace trace a space) (hb : TouchesSpace trace b space)
      (hca : a.mask.contains c = true) (hcb : b.mask.contains c = true)
  | collective (h : HoldsCollective trace a ∨ HoldsCollective trace b)
  | exclusive (ha : IsExclusive trace a profile) (hb : IsExclusive trace b profile)

/-- The number of a cache. -/
def Space.number : Space → Nat
  | .kv space => space
  | .state row => 2 ^ 32 - 1 - row

theorem spaceOf_eq_map (trace : Trace) (v : ValueId) : spaceOf trace v = (spaceNamed trace v).map Space.number := by
  unfold spaceNamed spaceOf
  cases hd : trace.defn v with
  | none => rfl
  | some d =>
    cases d with
    | cache row =>
      cases hc : trace.caches[row]? with
      | none => simp only [hc]; rfl
      | some c => cases c <;> (simp only [hc]; rfl)
    | _ => rfl

theorem spaceOf_none (h : spaceNamed trace v = none) : spaceOf trace v = none := by
  rw [spaceOf_eq_map, h]
  rfl

theorem spaceOf_eq {space : Space} (h : spaceNamed trace v = some space) : spaceOf trace v = some space.number := by
  rw [spaceOf_eq_map, h]
  rfl

section

variable {trace : Trace} {profile : DeviceProfile} {region : Region} {v : ValueId}

theorem mem_ins (hacyclic : Acyclic trace) (h : ReadsValue trace region v) :
    v ∈ (nodesOf trace region).flatMap (fun node => node.op.inputs.flatMap (arms (throughOf trace))) := by
  obtain ⟨node, hnode, i, hi, hs⟩ := h
  exact mem_flatMap.mpr ⟨node, hnode, mem_flatMap.mpr ⟨i, hi, throughOf_found hacyclic hs⟩⟩

theorem mem_outs (h : WritesValue trace region v) :
    v ∈ (nodesOf trace region).flatMap (fun node => node.op.outputs) := by
  obtain ⟨node, hnode, hv⟩ := h
  exact mem_flatMap.mpr ⟨node, hnode, hv⟩

theorem mem_reads (hacyclic : Acyclic trace) (hv : spaceNamed trace v = none) (h : ReadsValue trace region v) :
    v ∈ (touchesOf trace profile (throughOf trace) region).reads := by
  refine mem_normal.mpr (mem_filter.mpr ⟨mem_ins hacyclic h, ?_⟩)
  rw [spaceOf_none hv]
  rfl

theorem mem_writes (hv : spaceNamed trace v = none) (h : WritesValue trace region v) :
    v ∈ (touchesOf trace profile (throughOf trace) region).writes := by
  refine mem_normal.mpr (mem_filter.mpr ⟨mem_outs h, ?_⟩)
  rw [spaceOf_none hv]
  rfl

theorem mem_spaces (hacyclic : Acyclic trace) {n : Nat} (hn : spaceOf trace v = some n)
    (h : ReadsValue trace region v ∨ WritesValue trace region v) :
    n ∈ (touchesOf trace profile (throughOf trace) region).spaces := by
  refine mem_normal.mpr (mem_filterMap.mpr ⟨v, mem_append.mpr ?_, hn⟩)
  rcases h with h | h
  · exact .inl (mem_ins hacyclic h)
  · exact .inr (mem_outs h)

theorem barrier_of (h : HoldsCollective trace region) :
    (touchesOf trace profile (throughOf trace) region).barrier = true := by
  obtain ⟨node, hnode, hc⟩ := h
  exact any_eq_true.mpr ⟨node, hnode, decide_eq_true hc⟩

theorem exclusive_of (h : IsExclusive trace region profile) :
    (touchesOf trace profile (throughOf trace) region).exclusive = true := by
  obtain ⟨node, hnode, hc⟩ := h
  exact any_eq_true.mpr ⟨node, hnode, any_eq_true.mpr ⟨_, hc, beq_self_eq_true _⟩⟩

end

/-- **Every conflict is an edge.** -/
theorem edge_of_conflict {profile : DeviceProfile} (hacyclic : Acyclic trace) {regions : List Region}
    {a b : Nat} {ra rb : Region} (ha : regions[a]? = some ra) (hb : regions[b]? = some rb)
    (h : Conflict trace profile ra rb) : edgeAt trace regions profile a b = true := by
  have hmeet : ∀ {x : Nat} {l l' : List Nat}, x ∈ normal l → x ∈ normal l' →
      meets (normal l) (normal l') = true :=
    fun hx hx' => meets_of_mem (normal_sorted _) (normal_sorted _) hx hx'
  unfold edgeAt
  rw [ha, hb]
  show edge _ _ ra.mask rb.mask = true
  unfold edge
  split
  · rfl
  · rename_i hbarrier
    split
    · rfl
    · rename_i hexclusive
      split
      · rfl
      · rename_i hvalue
        cases h with
        | value hv h =>
          refine absurd ?_ hvalue
          rw [Bool.or_eq_true, Bool.or_eq_true]
          rcases h with ⟨hw, hr | hw'⟩ | ⟨hr, hw⟩
          · exact .inl (.inl (hmeet (@mem_writes _ profile _ _ hv hw) (@mem_reads _ profile _ _ hacyclic hv hr)))
          · exact .inl (.inr (hmeet (@mem_writes _ profile _ _ hv hw) (@mem_writes _ profile _ _ hv hw')))
          · exact .inr (hmeet (@mem_reads _ profile _ _ hacyclic hv hr) (@mem_writes _ profile _ _ hv hw))
        | space hsa hsb hca hcb =>
          obtain ⟨v, hv, hnv⟩ := hsa
          obtain ⟨w, hw, hnw⟩ := hsb
          have hd : ra.mask.disjoint rb.mask = false := ClassSet.disjoint_eq_false.mpr ⟨_, hca, hcb⟩
          have hmeets : meets (touchesOf trace profile (throughOf trace) ra).spaces
              (touchesOf trace profile (throughOf trace) rb).spaces = true :=
            hmeet (@mem_spaces _ profile _ _ hacyclic _ (spaceOf_eq hnv) hv)
              (@mem_spaces _ profile _ _ hacyclic _ (spaceOf_eq hnw) hw)
          rw [hd, hmeets]
          rfl
        | collective h =>
          refine absurd ?_ hbarrier
          rw [Bool.or_eq_true]
          rcases h with h | h
          · exact .inl (barrier_of h)
          · exact .inr (barrier_of h)
        | exclusive hea heb =>
          refine absurd ?_ hexclusive
          rw [exclusive_of hea, exclusive_of heb]
          rfl

/-! ## The closure -/

section

variable {edge : Nat → Nat → Bool}

/-- The edges out of `a`, and all behind them. -/
def outOf (edge : Nat → Nat → Bool) (a : Nat) (after : List Nat) (b : Nat) : List Nat :=
  if edge a b then after.set a (Bits.add (after.getD a 0) b ||| after.getD b 0) else after

theorem outOf_length (a : Nat) (after : List Nat) (b : Nat) : (outOf edge a after b).length = after.length := by
  unfold outOf
  split
  · exact length_set
  · rfl

theorem outOf_ne {a c : Nat} (hne : c ≠ a) (after : List Nat) (b : Nat) :
    (outOf edge a after b).getD c 0 = after.getD c 0 := by
  unfold outOf
  split
  · rw [getD_eq_getElem?_getD, getElem?_set_ne (Ne.symm hne), ← getD_eq_getElem?_getD]
  · rfl

theorem outOf_mono {a c x : Nat} {after : List Nat} {b : Nat} (h : Bits.has (after.getD c 0) x = true) :
    Bits.has ((outOf edge a after b).getD c 0) x = true := by
  by_cases hne : c = a
  · subst hne
    unfold outOf
    split
    · rw [getD_eq_getElem?_getD, getElem?_set]
      rw [if_pos rfl]
      split
      · show Bits.has (Bits.add (after.getD c 0) b ||| after.getD b 0) x = true
        rw [Bits.has_or, Bits.has_add, h]
        rfl
      · rename_i hlt
        rw [getD_eq_getElem?_getD, getElem?_eq_none (Nat.le_of_not_lt hlt)] at h
        exact h
    · exact h
  · rw [outOf_ne hne]
    exact h

theorem outOf_has {a b : Nat} {after : List Nat} (ha : a < after.length) (h : edge a b = true) :
    Bits.has ((outOf edge a after b).getD a 0) b = true := by
  unfold outOf
  rw [if_pos h, getD_eq_getElem?_getD, getElem?_set_self ha]
  show Bits.has (Bits.add (after.getD a 0) b ||| after.getD b 0) b = true
  rw [Bits.has_or, Bits.has_add, decide_eq_true rfl, Bool.or_true, Bool.true_or]

/-- **Every edge is a path.** -/
theorem path_of_edge {n a b : Nat} (hab : a < b) (hb : b < n) (h : edge a b = true) :
    path (closure edge n) a b = true := by
  have hinner : ∀ (c : Nat) (bs : List Nat) (after : List Nat),
      (bs.foldl (outOf edge c) after).length = after.length
        ∧ (∀ d x, Bits.has (after.getD d 0) x = true → Bits.has ((bs.foldl (outOf edge c) after).getD d 0) x = true)
        ∧ (c < after.length → ∀ x ∈ bs, edge c x = true → Bits.has ((bs.foldl (outOf edge c) after).getD c 0) x = true) := by
    intro c bs
    induction bs with
    | nil => exact fun after => ⟨rfl, fun _ _ h => h, nofun⟩
    | cons y bs ih =>
      intro after
      obtain ⟨h1, h2, h3⟩ := ih (outOf edge c after y)
      refine ⟨h1.trans (outOf_length c after y), fun d x hx => h2 d x (outOf_mono hx), fun hc => ?_⟩
      refine forall_mem_cons.mpr ⟨fun hy => h2 c y (outOf_has hc hy), h3 ?_⟩
      rw [outOf_length]
      exact hc
  have houter : ∀ (as : List Nat) (after : List Nat), after.length = n →
      let run := as.foldl (fun after c => (range' (c + 1) (n - (c + 1))).foldl (outOf edge c) after) after
      run.length = n ∧ (∀ d x, Bits.has (after.getD d 0) x = true → Bits.has (run.getD d 0) x = true)
        ∧ (a ∈ as → Bits.has (run.getD a 0) b = true) := by
    intro as
    induction as with
    | nil => exact fun after hlen => ⟨hlen, fun _ _ h => h, nofun⟩
    | cons c as ih =>
      intro after hlen
      obtain ⟨h1, h2, h3⟩ := hinner c (range' (c + 1) (n - (c + 1))) after
      obtain ⟨h4, h5, h6⟩ := ih _ (h1.trans hlen)
      refine ⟨h4, fun d x hx => h5 d x (h2 d x hx), fun hmem => ?_⟩
      rcases mem_cons.mp hmem with rfl | hmem
      · refine h5 a b (h3 (by omega) b ?_ h)
        rw [mem_range'_1]
        omega
      · exact h6 hmem
  obtain ⟨-, -, hrun⟩ := houter (range n).reverse (replicate n 0) length_replicate
  unfold Poem.path
  rw [decide_eq_true hab, Bool.true_and]
  exact hrun (mem_reverse.mpr (mem_range.mpr (by omega)))

end

end Pie.Proof.Streams
