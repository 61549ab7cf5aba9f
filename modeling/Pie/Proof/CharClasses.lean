import Pie.Grammar.Fsm
import Pie.Lib.Encodings

/-!
# Character classes

What a class adds to a graph is one edge that reads the encodings of its
characters: the states in between have one way in and one way out. So the
automaton of a class reads the encodings of the characters that are in one of
its ranges, or of those that are in none.
-/

namespace Pie.Proof.CharClasses

open List Pie.Grammar Lib.Paths Lib.Encodings

/-! ## Edges -/

variable {fsm fsm' fsm'' : NfaGraph} {start stop mid : Nat} {lo hi : UInt8} {L M : Language UInt8}

/-- Every edge leads to a state. -/
def Bounded (fsm : NfaGraph) : Prop := ∀ s w t, fsm.Edge s w t → t < fsm.numStates

theorem lt_of_edge {s t : Nat} {w : List UInt8} (h : fsm.Edge s w t) : s < fsm.numStates := by
  cases h with
  | char hs => exact (List.getElem?_eq_some_iff.mp hs).1
  | epsilon hs => exact (List.getElem?_eq_some_iff.mp hs).1

theorem numStates_addState : fsm.addState.1.numStates = fsm.numStates + 1 := length_append

theorem numStates_addCharEdge : (fsm.addCharEdge start lo hi stop).numStates = fsm.numStates := length_modify ..

theorem edge_addState : fsm.addState.1.Edge = fsm.Edge := by
  have hedges : ∀ (s : Nat) (edges : List FsmEdge), edges ≠ [] →
      (fsm.addState.1.edges[s]? = some edges ↔ fsm.edges[s]? = some edges) := by
    intro s edges hne
    show (fsm.edges ++ [[]])[s]? = some edges ↔ _
    rw [getElem?_append]
    split
    · rfl
    · next h =>
        have hnone : fsm.edges[s]? = none := getElem?_eq_none (not_lt.mp h)
        rw [hnone]
        refine ⟨fun he => absurd ?_ hne, nofun⟩
        exact (mem_singleton.mp (mem_of_getElem? he))
  funext s w t
  refine propext ⟨?_, ?_⟩
  · rintro (⟨hs, he, hb⟩ | ⟨hs, he⟩)
    · exact .char ((hedges s _ (ne_nil_of_mem he)).mp hs) he hb
    · exact .epsilon ((hedges s _ (ne_nil_of_mem he)).mp hs) he
  · rintro (⟨hs, he, hb⟩ | ⟨hs, he⟩)
    · exact .char ((hedges s _ (ne_nil_of_mem he)).mpr hs) he hb
    · exact .epsilon ((hedges s _ (ne_nil_of_mem he)).mpr hs) he

theorem edge_addCharEdge (h : start < fsm.numStates) :
    (fsm.addCharEdge start lo hi stop).Edge = fsm.Edge ⊔ only start (bytes lo hi) stop := by
  have hself : (fsm.addCharEdge start lo hi stop).edges[start]? = some (fsm.edges[start] ++ [.charRange lo hi stop]) := by
    show (fsm.edges.modify start _)[start]? = _
    rw [getElem?_modify, getElem?_eq_getElem h]
    simp only [if_true]
    rfl
  have hother : ∀ s : Nat, s ≠ start → (fsm.addCharEdge start lo hi stop).edges[s]? = fsm.edges[s]? := by
    intro s hs
    show (fsm.edges.modify start _)[s]? = _
    rw [getElem?_modify]
    simp only [if_neg (Ne.symm hs)]
    exact id_map _
  have hold : fsm.edges[start]? = some fsm.edges[start] := getElem?_eq_getElem h
  -- an edge is one that was there or the new one
  have hcases : ∀ (s : Nat) (edge : FsmEdge),
      (∃ edges, (fsm.addCharEdge start lo hi stop).edges[s]? = some edges ∧ edge ∈ edges)
        ↔ (∃ edges, fsm.edges[s]? = some edges ∧ edge ∈ edges) ∨ s = start ∧ edge = .charRange lo hi stop := by
    intro s edge
    by_cases hs : s = start
    · subst hs
      rw [hself, hold]
      simp only [Option.some.injEq, exists_eq_left', mem_append, mem_singleton, true_and]
    · rw [hother s hs]
      simp only [hs, false_and, or_false]
  funext s w t
  refine propext ⟨?_, ?_⟩
  · rintro (⟨hs, he, hb⟩ | ⟨hs, he⟩)
    · rcases (hcases _ _).mp ⟨_, hs, he⟩ with ⟨_, hs, he⟩ | ⟨rfl, he⟩
      · exact .inl (.char hs he hb)
      · cases he
        exact .inr ⟨rfl, ⟨_, rfl, UInt8.le_iff_toNat_le.mp hb.1, UInt8.le_iff_toNat_le.mp hb.2⟩, rfl⟩
    · rcases (hcases _ _).mp ⟨_, hs, he⟩ with ⟨_, hs, he⟩ | ⟨-, he⟩
      · exact .inl (.epsilon hs he)
      · cases he
  · rintro ((⟨hs, he, hb⟩ | ⟨hs, he⟩) | ⟨rfl, ⟨b, rfl, h1, h2⟩, rfl⟩)
    · obtain ⟨_, hs, he⟩ := (hcases _ _).mpr (.inl ⟨_, hs, he⟩)
      exact .char hs he hb
    · obtain ⟨_, hs, he⟩ := (hcases _ _).mpr (.inl ⟨_, hs, he⟩)
      exact .epsilon hs he
    · obtain ⟨_, hs, he⟩ := (hcases _ _).mpr (.inr ⟨rfl, rfl⟩)
      exact .char hs he ⟨UInt8.le_iff_toNat_le.mpr h1, UInt8.le_iff_toNat_le.mpr h2⟩

/-! ## What is added -/

/-- Seen from the states that were there, one edge was added. -/
structure Adds (fsm fsm' : NfaGraph) (start : Nat) (L : Language UInt8) (stop : Nat) : Prop where
  bounded : Bounded fsm'
  le : fsm.numStates ≤ fsm'.numStates
  path : ∀ R : Nat → List UInt8 → Nat → Prop, (∀ s w t, R s w t → s < fsm.numStates ∧ t < fsm.numStates) →
    ∀ s w t, s < fsm.numStates → t < fsm.numStates →
      (Path (fsm'.Edge ⊔ R) s w t ↔ Path (fsm.Edge ⊔ R ⊔ only start L stop) s w t)

theorem Adds.nothing (h : Bounded fsm) : Adds fsm fsm start 0 stop :=
  ⟨h, le_rfl, fun R _ s w t _ _ => by rw [only_zero, sup_bot_eq]⟩

theorem Adds.edge (h : Bounded fsm) (hstart : start < fsm.numStates) (hstop : stop < fsm.numStates) :
    Adds fsm (fsm.addCharEdge start lo hi stop) start (bytes lo hi) stop := by
  refine ⟨?_, le_of_eq numStates_addCharEdge.symm, fun R _ s w t _ _ => ?_⟩
  · intro s w t he
    rw [edge_addCharEdge hstart] at he
    rw [numStates_addCharEdge]
    rcases he with he | ⟨-, -, rfl⟩
    · exact h _ _ _ he
    · exact hstop
  · rw [edge_addCharEdge hstart, sup_assoc, sup_comm (only _ _ _), ← sup_assoc]

theorem Adds.trans (hstart : start < fsm.numStates) (hstop : stop < fsm.numStates) (h : Adds fsm fsm' start L stop)
    (h' : Adds fsm' fsm'' start M stop) : Adds fsm fsm'' start (L + M) stop := by
  refine ⟨h'.bounded, h.le.trans h'.le, fun R hR s w t hs ht => ?_⟩
  have hR' : ∀ s w t, (R ⊔ only start M stop) s w t → s < fsm.numStates ∧ t < fsm.numStates := by
    rintro s w t (hr | ⟨rfl, -, rfl⟩)
    · exact hR s w t hr
    · exact ⟨hstart, hstop⟩
  rw [h'.path R (fun s w t hr => ⟨(hR s w t hr).1.trans_le h.le, (hR s w t hr).2.trans_le h.le⟩) s w t
      (hs.trans_le h.le) (ht.trans_le h.le),
    sup_assoc, h.path _ hR' s w t hs ht, ← sup_assoc, sup_assoc, only_sup, add_comm]

/-- What goes on from a new state, which one edge enters. -/
theorem Adds.via (h : Bounded fsm) (hstart : start < fsm.numStates) (hstop : stop < fsm.numStates)
    (h' : Adds (fsm.addState.1.addCharEdge start lo hi fsm.numStates) fsm' fsm.numStates L stop) :
    Adds fsm fsm' start (bytes lo hi * L) stop := by
  have hlt : ∀ {s}, s < fsm.numStates → s < fsm.addState.1.numStates := fun h => by rw [numStates_addState]; omega
  have hn : (fsm.addState.1.addCharEdge start lo hi fsm.numStates).numStates = fsm.numStates + 1 := by
    rw [numStates_addCharEdge, numStates_addState]
  refine ⟨h'.bounded, by have := h'.le; omega, fun R hR s w t hs ht => ?_⟩
  have hQ : ∀ s w t, (fsm.Edge ⊔ R) s w t → s ≠ fsm.numStates ∧ t ≠ fsm.numStates := by
    rintro s w t (he | hr)
    · exact ⟨(lt_of_edge he).ne, (h s w t he).ne⟩
    · exact ⟨(hR s w t hr).1.ne, (hR s w t hr).2.ne⟩
  rw [h'.path R (fun s w t hr => ⟨by have := (hR s w t hr).1; omega, by have := (hR s w t hr).2; omega⟩) s w t
      (by omega) (by omega),
    edge_addCharEdge (hlt hstart), edge_addState, sup_assoc fsm.Edge, sup_comm (only _ _ _) R, ← sup_assoc fsm.Edge]
  exact eliminate hQ hstart.ne hstop.ne hs.ne ht.ne

theorem bounded_via (h : Bounded fsm) (hstart : start < fsm.numStates) :
    Bounded (fsm.addState.1.addCharEdge start lo hi fsm.numStates) := by
  have hstart' : start < fsm.addState.1.numStates := by rw [numStates_addState]; omega
  intro s w t he
  rw [edge_addCharEdge hstart', edge_addState] at he
  rw [numStates_addCharEdge, numStates_addState]
  rcases he with he | ⟨-, -, rfl⟩
  · exact (h s w t he).trans (Nat.lt_succ_self _)
  · exact Nat.lt_succ_self _

/-- **The words between two encodings are added.** -/
theorem addUtf8ByteRange_adds : ∀ (left : Nat) (fsm : NfaGraph) (los his : List UInt8) (start stop : Nat),
    los.length = left + 1 → his.length = left + 1 → Conts los.tail → Conts his.tail → value los ≤ value his →
    Bounded fsm → start < fsm.numStates → stop < fsm.numStates →
    ∃ fsm', addUtf8ByteRange left fsm los his start stop = some fsm' ∧ Adds fsm fsm' start (between los his) stop := by
  intro left
  induction left with
  | zero =>
    intro fsm los his start stop hl hh _ _ _ hb hstart hstop
    obtain ⟨lo, rfl⟩ := length_eq_one_iff.mp hl
    obtain ⟨hi, rfl⟩ := length_eq_one_iff.mp hh
    rw [between_single]
    exact ⟨_, rfl, .edge hb hstart hstop⟩
  | succ left ih =>
    intro fsm los his start stop hl hh hcl hch hle hb hstart hstop
    match los, his with
    | lo :: los, hi :: his =>
      have hl' : los.length = left + 1 := Nat.succ.inj hl
      have hh' : his.length = left + 1 := Nat.succ.inj hh
      have hlen : los.length = his.length := hl'.trans hh'.symm
      have hle' := (value_le_iff hlen hcl hch).mp hle
      -- one piece, after the pieces before it
      have hpiece : ∀ (fsm : NfaGraph) (a b : UInt8) (us vs : List UInt8), us.length = left + 1 → vs.length = left + 1 →
          Conts us → Conts vs → value us ≤ value vs → Bounded fsm → start < fsm.numStates → stop < fsm.numStates →
          ∃ fsm', addUtf8ByteRange left (fsm.addState.1.addCharEdge start a b fsm.numStates) us vs fsm.numStates stop
            = some fsm' ∧ Adds fsm fsm' start (bytes a b * between us vs) stop := by
        intro fsm a b us vs hu hv hcu hcv huv hb hstart hstop
        have hn : (fsm.addState.1.addCharEdge start a b fsm.numStates).numStates = fsm.numStates + 1 := by
          rw [numStates_addCharEdge, numStates_addState]
        obtain ⟨fsm', he, ha⟩ := ih (fsm.addState.1.addCharEdge start a b fsm.numStates) us vs fsm.numStates stop hu hv
          (fun x hx => hcu x (mem_of_mem_tail hx)) (fun x hx => hcv x (mem_of_mem_tail hx)) huv
          (bounded_via hb hstart) (by omega) (by omega)
        exact ⟨fsm', he, .via hb hstart hstop ha⟩
      rw [addUtf8ByteRange]
      rcases hle' with hlt | ⟨heq, hle'⟩
      · rw [if_neg fun he => hlt.ne (congrArg UInt8.toNat he), between_cut hlen hcl hch hlt]
        have h80 : ∀ us : List UInt8, Conts us → value (us.map fun _ => 0x80) ≤ value us := by
          intro us hus
          rw [value_map_80]
          exact (value_bounds hus).1
        have hBF : ∀ us : List UInt8, Conts us → value us ≤ value (us.map fun _ => 0xBF) := by
          intro us hus
          have h1 := (value_bounds hus).2
          have h2 := value_map_BF us
          omega
        obtain ⟨f₁, e₁, a₁⟩ := hpiece fsm lo lo los (los.map fun _ => 0xBF) hl' (by rw [length_map, hl']) hcl
          (conts_map_BF los) (hBF los hcl) hb hstart hstop
        have hs₁ : start < f₁.numStates := hstart.trans_le a₁.le
        have ht₁ : stop < f₁.numStates := hstop.trans_le a₁.le
        obtain ⟨f₂, e₂, a₂⟩ : ∃ f₂, (if lo.toNat < hi.toNat - 1 then
            addUtf8ByteRange left (f₁.addState.1.addCharEdge start (lo + 1) (hi - 1) f₁.numStates)
              (los.map fun _ => 0x80) (his.map fun _ => 0xBF) f₁.numStates stop
            else some f₁) = some f₂
            ∧ Adds f₁ f₂ start (bytes (lo + 1) (hi - 1) * between (los.map fun _ => 0x80) (his.map fun _ => 0xBF)) stop := by
          have hl1 := toNat_add_one hlt
          have hh1 := toNat_sub_one hlt
          split
          · refine hpiece f₁ (lo + 1) (hi - 1) _ _ (by rw [length_map, hl']) (by rw [length_map, hh'])
              (conts_map_80 los) (conts_map_BF his) ?_ a₁.bounded hs₁ ht₁
            have h1 := value_map_80 los
            have h2 := value_map_BF his
            have h3 : 0 < 64 ^ his.length := Nat.pow_pos (by decide)
            rw [hlen] at h1
            omega
          · rw [bytes_empty (by omega), zero_mul]
            exact ⟨f₁, rfl, .nothing a₁.bounded⟩
        have hs₂ : start < f₂.numStates := hs₁.trans_le a₂.le
        have ht₂ : stop < f₂.numStates := ht₁.trans_le a₂.le
        obtain ⟨f₃, e₃, a₃⟩ := hpiece f₂ hi hi (his.map fun _ => 0x80) his (by rw [length_map, hh']) hh'
          (conts_map_80 his) hch (h80 his hch) a₂.bounded hs₂ ht₂
        refine ⟨f₃, ?_, (a₁.trans hstart hstop a₂).trans hstart hstop a₃⟩
        exact Option.bind_eq_some_iff.mpr ⟨f₁, e₁, Option.bind_eq_some_iff.mpr ⟨f₂, e₂, e₃⟩⟩
      · obtain rfl := UInt8.toNat_inj.mp heq
        rw [if_pos rfl, between_same hlen hcl hch]
        exact hpiece fsm lo lo los his hl' hh' hcl hch hle' hb hstart hstop
    | [], _ => cases hl
    | _ :: _, [] => cases hh

section Range

variable (hb : Bounded fsm) (hstart : start < fsm.numStates) (hstop : stop < fsm.numStates)
include hb hstart hstop

theorem addUtf8Class_adds {k offset a b : Nat} (lo hi : Nat) (hshape : ∀ c : Char, a ≤ c.toNat → c.toNat ≤ b → Shape k offset c)
    (hvalid : ∀ n, a ≤ n → n ≤ b → n.isValidChar) :
    ∃ fsm', addUtf8Class fsm (max lo a) (min hi b) start stop = some fsm'
      ∧ Adds fsm fsm' start (encodings (max lo a) (min hi b)) stop := by
  unfold addUtf8Class
  split
  · next hle =>
      have hlo := hvalid (max lo a) (le_max_right _ _) (hle.trans (min_le_right _ _))
      have hhi := hvalid (min hi b) ((le_max_right _ _).trans hle) (min_le_right _ _)
      have hlo' := toNat_ofNatAux hlo
      have hhi' := toNat_ofNatAux hhi
      have hl := hshape (Char.ofNatAux _ hlo) (by omega) (by omega)
      have hh := hshape (Char.ofNatAux _ hhi) (by omega) (by omega)
      have hbetween := @between_encodings k offset a b hshape hvalid (Char.ofNatAux _ hlo) (Char.ofNatAux _ hhi)
        (by omega) (by omega) (by omega) (by omega)
      rw [hlo', hhi'] at hbetween
      obtain ⟨fsm', he, ha⟩ := addUtf8ByteRange_adds k fsm _ _ start stop hl.length hh.length hl.conts hh.conts
        (by rw [hl.value, hh.value, hlo', hhi']; omega) hb hstart hstop
      rw [hbetween] at ha
      refine ⟨fsm', ?_, ha⟩
      have hel : encodeCodepointUtf8 (max lo a) = some (String.utf8EncodeChar (Char.ofNatAux _ hlo)) := by
        unfold encodeCodepointUtf8 fromU32
        rw [dif_pos hlo]
        rfl
      have heh : encodeCodepointUtf8 (min hi b) = some (String.utf8EncodeChar (Char.ofNatAux _ hhi)) := by
        unfold encodeCodepointUtf8 fromU32
        rw [dif_pos hhi]
        rfl
      unfold addUtf8NfaRange
      rw [hel, heh]
      show addUtf8ByteRange ((String.utf8EncodeChar _).length - 1) _ _ _ _ _ = _
      rw [hl.length]
      exact he
  · next hlt =>
      rw [encodings_empty (not_le.mp hlt)]
      exact ⟨fsm, rfl, .nothing hb⟩

/-- **A range of characters is added.** -/
theorem addCodepointRangeNfa_adds (range : Nat × Nat) : ∃ fsm', addCodepointRangeNfa fsm range start stop = some fsm'
      ∧ Adds fsm fsm' start (encodings range.1 range.2) stop := by
  obtain ⟨lo, hi⟩ := range
  obtain ⟨f₀, e₀, a₀⟩ : ∃ f₀, (if lo ≤ min hi 0x7F then fsm.addCharEdge start (.ofNat lo) (.ofNat (min hi 0x7F)) stop
      else fsm) = f₀ ∧ Adds fsm f₀ start (encodings lo (min hi 0x7F)) stop := by
    split
    · next hle =>
        rw [← bytes_encodings (min_le_right _ _) hle]
        exact ⟨_, rfl, .edge hb hstart hstop⟩
    · next hlt =>
        rw [encodings_empty (not_le.mp hlt)]
        exact ⟨_, rfl, .nothing hb⟩
  obtain ⟨f₁, e₁, a₁⟩ := addUtf8Class_adds a₀.bounded (hstart.trans_le a₀.le) (hstop.trans_le a₀.le) lo hi
    (fun c h h' => shape_two h h') (fun n _ h => .inl (by omega))
  have b₁ := a₀.trans hstart hstop a₁
  obtain ⟨f₂, e₂, a₂⟩ := addUtf8Class_adds b₁.bounded (hstart.trans_le b₁.le) (hstop.trans_le b₁.le) lo hi
    (fun c h (h' : c.toNat ≤ 0xD7FF) => shape_three h (h'.trans (by decide))) (fun n _ h => .inl (by omega))
  have b₂ := b₁.trans hstart hstop a₂
  obtain ⟨f₃, e₃, a₃⟩ := addUtf8Class_adds b₂.bounded (hstart.trans_le b₂.le) (hstop.trans_le b₂.le) lo hi
    (fun c (h : 0xE000 ≤ c.toNat) h' => shape_three (le_trans (by decide) h) h') (fun n h h' => .inr ⟨by omega, by omega⟩)
  have b₃ := b₂.trans hstart hstop a₃
  obtain ⟨f₄, e₄, a₄⟩ := addUtf8Class_adds b₃.bounded (hstart.trans_le b₃.le) (hstop.trans_le b₃.le) lo hi
    (fun c h (_ : c.toNat ≤ 0x10FFFF) => shape_four h) (fun n h h' => .inr ⟨by omega, by omega⟩)
  refine ⟨f₄, ?_, ?_⟩
  · subst e₀
    exact Option.bind_eq_some_iff.mpr ⟨f₁, e₁, Option.bind_eq_some_iff.mpr ⟨f₂, e₂, Option.bind_eq_some_iff.mpr ⟨f₃, e₃, e₄⟩⟩⟩
  · have hall := b₃.trans hstart hstop a₄
    have hsum : encodings lo (min hi 0x7F) + encodings (max lo 0x80) (min hi 0x7FF)
        + encodings (max lo 0x800) (min hi 0xD7FF) + encodings (max lo 0xE000) (min hi 0xFFFF)
        + encodings (max lo 0x10000) (min hi 0x10FFFF) = encodings lo hi := by
      ext w
      constructor
      · rintro ((((⟨c, h1, h2, he⟩ | ⟨c, h1, h2, he⟩) | ⟨c, h1, h2, he⟩) | ⟨c, h1, h2, he⟩) | ⟨c, h1, h2, he⟩) <;>
          exact ⟨c, by omega, by omega, he⟩
      · rintro ⟨c, h1, h2, he⟩
        have hmax := toNat_le c
        have hvalid : c.toNat < 0xD800 ∨ 0xDFFF < c.toNat ∧ c.toNat < 0x110000 := c.valid
        by_cases h7F : c.toNat ≤ 0x7F
        · exact .inl (.inl (.inl (.inl ⟨c, h1, by omega, he⟩)))
        · by_cases h7FF : c.toNat ≤ 0x7FF
          · exact .inl (.inl (.inl (.inr ⟨c, by omega, by omega, he⟩)))
          · by_cases hD7FF : c.toNat ≤ 0xD7FF
            · exact .inl (.inl (.inr ⟨c, by omega, by omega, he⟩))
            · by_cases hFFFF : c.toNat ≤ 0xFFFF
              · exact .inl (.inr ⟨c, by omega, by omega, he⟩)
              · exact .inr ⟨c, by omega, by omega, he⟩
    rw [hsum] at hall
    exact hall

end Range

/-! ## The complement -/

def Covers (ranges : List (Nat × Nat)) (n : Nat) : Prop := ∃ r ∈ ranges, r.1 ≤ n ∧ n ≤ r.2

/-- Ranges in order that do not meet. -/
structure Apart (merged : List (Nat × Nat)) : Prop where
  le : ∀ r ∈ merged, r.1 ≤ r.2
  apart : merged.Pairwise fun a b => a.2 + 1 < b.1

theorem covers_append {as bs : List (Nat × Nat)} {n : Nat} : Covers (as ++ bs) n ↔ Covers as n ∨ Covers bs n := by
  unfold Covers
  simp only [mem_append, or_and_right, exists_or]

theorem covers_cons {a : Nat × Nat} {as : List (Nat × Nat)} {n : Nat} :
    Covers (a :: as) n ↔ (a.1 ≤ n ∧ n ≤ a.2) ∨ Covers as n := by
  unfold Covers
  simp only [mem_cons, or_and_right, exists_or, exists_eq_left]

/-- One range more, which begins no earlier than those before it. -/
theorem mergeRange_apart {merged : List (Nat × Nat)} {range : Nat × Nat} (h : Apart merged) (hr : range.1 ≤ range.2)
    (hle : ∀ r ∈ merged, r.1 ≤ range.1) : Apart (mergeRange merged range)
      ∧ (∀ next, range.1 ≤ next → ∀ r ∈ mergeRange merged range, r.1 ≤ next)
      ∧ ∀ n, Covers (mergeRange merged range) n ↔ Covers merged n ∨ (range.1 ≤ n ∧ n ≤ range.2) := by
  unfold mergeRange
  rcases eq_nil_or_concat merged with rfl | ⟨init, last, rfl⟩
  · refine ⟨⟨?_, pairwise_singleton _ _⟩, ?_, ?_⟩
    · intro r hm
      rwa [mem_singleton.mp hm]
    · intro next hn r hm
      rwa [mem_singleton.mp hm]
    · intro n
      exact covers_append.trans (or_congr Iff.rfl (covers_cons.trans (or_iff_left nofun)))
  · rw [concat_eq_append, getLast?_append, getLast?_singleton, Option.some_or]
    rw [concat_eq_append] at h hle
    have hlast := hle last mem_append_cons_self
    have hlast' := h.le last mem_append_cons_self
    obtain ⟨hinit, -, hcross⟩ := pairwise_append.mp h.apart
    dsimp only
    split
    · next hmeet =>
        rw [dropLast_concat]
        refine ⟨⟨?_, ?_⟩, ?_, ?_⟩
        · intro r hm
          rcases mem_append.mp hm with hm | hm
          · exact h.le r (mem_append_left _ hm)
          · rw [mem_singleton.mp hm]
            exact hlast'.trans (le_max_left _ _)
        · refine pairwise_append.mpr ⟨hinit, pairwise_singleton _ _, fun a ha b hb => ?_⟩
          rw [mem_singleton.mp hb]
          exact hcross a ha last mem_cons_self
        · intro next hn r hm
          rcases mem_append.mp hm with hm | hm
          · exact (hle r (mem_append_left _ hm)).trans hn
          · rw [mem_singleton.mp hm]
            exact hlast.trans hn
        · intro n
          rw [covers_append, covers_append, covers_cons, covers_cons, or_iff_left (a := _ ∧ _) (b := Covers [] n) nofun,
            or_iff_left (a := _ ∧ _) (b := Covers [] n) nofun, or_assoc]
          refine or_congr Iff.rfl ?_
          omega
    · next hmeet =>
        refine ⟨⟨?_, ?_⟩, ?_, ?_⟩
        · intro r hm
          rcases mem_append.mp hm with hm | hm
          · exact h.le r hm
          · rwa [mem_singleton.mp hm]
        · refine pairwise_append.mpr ⟨h.apart, pairwise_singleton _ _, fun a ha b hb => ?_⟩
          rw [mem_singleton.mp hb]
          rcases mem_append.mp ha with ha | ha
          · have := hcross a ha last mem_cons_self
            omega
          · rw [mem_singleton.mp ha]
            omega
        · intro next hn r hm
          rcases mem_append.mp hm with hm | hm
          · exact (hle r hm).trans hn
          · rwa [mem_singleton.mp hm]
        · intro n
          rw [@covers_append (init ++ [last]), covers_cons, or_iff_left (a := _ ∧ _) (b := Covers [] n) nofun]

theorem foldl_mergeRange : ∀ {ranges merged : List (Nat × Nat)}, (ranges.Pairwise fun a b => a.1 ≤ b.1) →
    (∀ r ∈ ranges, r.1 ≤ r.2) → Apart merged → (∀ m ∈ merged, ∀ r ∈ ranges, m.1 ≤ r.1) →
    Apart (ranges.foldl mergeRange merged)
      ∧ ∀ n, Covers (ranges.foldl mergeRange merged) n ↔ Covers merged n ∨ Covers ranges n := by
  intro ranges
  induction ranges with
  | nil => exact fun _ _ h _ => ⟨h, fun n => (or_iff_left nofun).symm⟩
  | cons range ranges ih =>
    intro merged hsorted hle h hbefore
    rw [pairwise_cons] at hsorted
    obtain ⟨h1, h2, h3⟩ := mergeRange_apart h (hle range mem_cons_self)
      (fun m hm => hbefore m hm range mem_cons_self)
    obtain ⟨h4, h5⟩ := ih hsorted.2 (fun r hr => hle r (mem_cons_of_mem _ hr)) h1
      (fun m hm r hr => h2 r.1 (hsorted.1 r hr) m hm)
    refine ⟨h4, fun n => ?_⟩
    rw [foldl_cons, h5, h3, covers_cons, or_assoc]

theorem covers_gaps {n : Nat} (hn : n ≤ 0x10FFFF) : ∀ {merged : List (Nat × Nat)} {prevEnd : Nat}, Apart merged →
    (∀ r ∈ merged, prevEnd ≤ r.1 ∧ r.2 ≤ 0x10FFFF) → (Covers (gaps merged prevEnd) n ↔ prevEnd ≤ n ∧ ¬Covers merged n) := by
  intro merged
  induction merged with
  | nil =>
    intro prevEnd _ _
    unfold gaps
    split
    · rw [covers_cons]
      exact ⟨fun h => ⟨(h.resolve_right nofun).1, nofun⟩, fun h => .inl ⟨h.1, hn⟩⟩
    · exact ⟨nofun, fun h => by omega⟩
  | cons range merged ih =>
    intro prevEnd h hmax
    obtain ⟨lo, hi⟩ := range
    have hle : lo ≤ hi := h.le (lo, hi) mem_cons_self
    obtain ⟨hprev, hhi⟩ : prevEnd ≤ lo ∧ hi ≤ 0x10FFFF := hmax (lo, hi) mem_cons_self
    have hnext : ∀ r ∈ merged, hi + 1 < r.1 := fun r hr => rel_of_pairwise_cons h.apart hr
    have hrest : Covers merged n → hi + 1 < n := fun ⟨r, hr, h1, _⟩ => (hnext r hr).trans_le h1
    have hgaps := @ih (hi + 1) ⟨fun r hr => h.le r (mem_cons_of_mem _ hr), h.apart.of_cons⟩
      (fun r hr => ⟨(hnext r hr).le, (hmax r (mem_cons_of_mem _ hr)).2⟩)
    have hfirst : Covers (if prevEnd < lo then [(prevEnd, lo - 1)] else []) n ↔ prevEnd ≤ n ∧ n < lo := by
      split
      · rw [covers_cons, or_iff_left nofun]
        omega
      · exact ⟨nofun, fun h => by omega⟩
    unfold gaps
    rw [covers_append, covers_cons, min_eq_left (by omega), hgaps, hfirst]
    by_cases hc : Covers merged n
    · have := hrest hc
      simp only [hc, not_true, and_false, or_false, or_true, iff_false]
      omega
    · simp only [hc, not_false_iff, and_true, or_false]
      omega

variable {ranges : List (Nat × Nat)}

theorem covers_insertionSort {n : Nat} : Covers (ranges.insertionSort fun a b => a.1 ≤ b.1) n ↔ Covers ranges n := by
  unfold Covers
  simp only [mem_insertionSort]

theorem covers_dropSurrogates {n : Nat} (hn : n < 0xD800 ∨ 0xDFFF < n) :
    Covers (ranges.flatMap dropSurrogates) n ↔ Covers ranges n := by
  induction ranges with
  | nil => exact Iff.rfl
  | cons range ranges ih =>
    rw [flatMap_cons, covers_append, covers_cons, ih]
    refine or_congr ?_ Iff.rfl
    unfold dropSurrogates
    split
    · rw [covers_cons, or_iff_left nofun]
    · rw [covers_append]
      have hbelow : Covers (if range.1 < 0xD800 then [(range.1, 0xD7FF)] else []) n ↔ range.1 ≤ n ∧ n ≤ 0xD7FF := by
        split
        · rw [covers_cons, or_iff_left nofun]
        · exact ⟨nofun, fun h => by omega⟩
      have habove : Covers (if 0xDFFF < range.2 then [(0xE000, range.2)] else []) n ↔ 0xE000 ≤ n ∧ n ≤ range.2 := by
        split
        · rw [covers_cons, or_iff_left nofun]
        · exact ⟨nofun, fun h => by omega⟩
      rw [hbelow, habove]
      omega

/-- **The complement holds the other characters.** -/
theorem covers_complement (hranges : ∀ r ∈ ranges, r.1 ≤ r.2 ∧ r.2 ≤ 0x10FFFF) (c : Char) :
    Covers (complementCodepointRanges ranges) c.toNat ↔ ¬Covers ranges c.toNat := by
  have hvalid : c.toNat < 0xD800 ∨ 0xDFFF < c.toNat ∧ c.toNat < 0x110000 := c.valid
  have hsorted : (ranges.insertionSort fun a b => a.1 ≤ b.1).Pairwise fun a b => a.1 ≤ b.1 :=
    haveI : Std.Total (α := Nat × Nat) fun a b => a.1 ≤ b.1 := ⟨fun a b => le_total a.1 b.1⟩
    haveI : IsTrans (Nat × Nat) fun a b => a.1 ≤ b.1 := ⟨fun _ _ _ => le_trans⟩
    pairwise_insertionSort _ _
  obtain ⟨hapart, hcovers⟩ := @foldl_mergeRange _ [] hsorted
    (fun r hr => (hranges r ((mem_insertionSort _).mp hr)).1) ⟨nofun, .nil⟩ nofun
  change Apart (mergeRanges ranges) at hapart
  have hmerged : ∀ n, Covers (mergeRanges ranges) n ↔ Covers ranges n := fun n =>
    (hcovers n).trans ((or_iff_right nofun).trans covers_insertionSort)
  unfold complementCodepointRanges
  rw [covers_dropSurrogates (by omega), covers_gaps (by omega) hapart, hmerged]
  · exact and_iff_right (Nat.zero_le _)
  · intro r hr
    obtain ⟨r', hr', -, h⟩ := (hmerged r.2).mp ⟨r, hr, hapart.le r hr, le_rfl⟩
    exact ⟨Nat.zero_le _, h.trans (hranges r' hr').2⟩

example : complementCodepointRanges [(10, 20), (5, 7), (8, 9)] = [(0, 4), (21, 0xD7FF), (0xE000, 0x10FFFF)] := by decide

/-! ## Classes -/

/-- The encodings of the characters in the ranges. -/
def covered (ranges : List (Nat × Nat)) : Language UInt8 :=
  {w | ∃ c : Char, Covers ranges c.toNat ∧ w = String.utf8EncodeChar c}

theorem covered_cons (range : Nat × Nat) (ranges : List (Nat × Nat)) :
    covered (range :: ranges) = encodings range.1 range.2 + covered ranges := by
  ext w
  constructor
  · rintro ⟨c, hc, he⟩
    rcases covers_cons.mp hc with ⟨h1, h2⟩ | hc
    · exact .inl ⟨c, h1, h2, he⟩
    · exact .inr ⟨c, hc, he⟩
  · rintro (⟨c, h1, h2, he⟩ | ⟨c, hc, he⟩)
    · exact ⟨c, covers_cons.mpr (.inl ⟨h1, h2⟩), he⟩
    · exact ⟨c, covers_cons.mpr (.inr hc), he⟩

theorem addRanges_adds : ∀ {ranges : List (Nat × Nat)} {fsm : NfaGraph} {start stop : Nat}, Bounded fsm →
    start < fsm.numStates → stop < fsm.numStates →
    ∃ fsm', ranges.foldlM (fun fsm range => addCodepointRangeNfa fsm range start stop) fsm = some fsm'
      ∧ Adds fsm fsm' start (covered ranges) stop := by
  intro ranges
  induction ranges with
  | nil =>
    intro fsm start stop hb _ _
    have hempty : covered [] = 0 := by
      ext w
      exact ⟨fun ⟨_, ⟨_, hr, _⟩, _⟩ => absurd hr not_mem_nil, False.elim⟩
    rw [hempty]
    exact ⟨fsm, rfl, .nothing hb⟩
  | cons range ranges ih =>
    intro fsm start stop hb hstart hstop
    obtain ⟨f₁, e₁, a₁⟩ := addCodepointRangeNfa_adds hb hstart hstop range
    obtain ⟨f₂, e₂, a₂⟩ := ih a₁.bounded (hstart.trans_le a₁.le) (hstop.trans_le a₁.le)
    rw [foldlM_cons, covered_cons]
    exact ⟨f₂, Option.bind_eq_some_iff.mpr ⟨f₁, e₁, e₂⟩, a₁.trans hstart hstop a₂⟩

/-- **Character classes compile to exact UTF-8.** The automaton of a class reads, from its start to
its end, the encodings of the characters that are in its ranges, or in none of them. -/
theorem char_class_utf8 (negated : Bool) (ranges : List (Nat × Nat))
    (hranges : ∀ r ∈ ranges, r.1 ≤ r.2 ∧ r.2 ≤ 0x10FFFF) :
    ∃ fsm start stop, charClassAutomaton negated ranges = some (fsm, start, stop)
      ∧ ∀ word, word ∈ fsm.language start stop ↔ ∃ c : Char, word = String.utf8EncodeChar c
        ∧ ((∃ r ∈ ranges, r.1 ≤ c.toNat ∧ c.toNat ≤ r.2) ↔ negated = false) := by
  have hempty : NfaGraph.new.addState.1.addState.1.Edge = ⊥ := by
    rw [edge_addState, edge_addState]
    funext s w t
    exact propext ⟨fun he => absurd (lt_of_edge he) (Nat.not_lt_zero _), False.elim⟩
  have hb : Bounded NfaGraph.new.addState.1.addState.1 := by
    intro s w t he
    rw [hempty] at he
    exact he.elim
  obtain ⟨fsm, he, ha⟩ := @addRanges_adds (if negated then complementCodepointRanges ranges else ranges)
    _ 0 1 hb Nat.zero_lt_two Nat.one_lt_two
  refine ⟨fsm, 0, 1, ?_, fun word => ?_⟩
  · exact Option.bind_eq_some_iff.mpr ⟨fsm, he, rfl⟩
  · have hclass : word ∈ covered (if negated then complementCodepointRanges ranges else ranges)
        ↔ ∃ c : Char, word = String.utf8EncodeChar c
          ∧ ((∃ r ∈ ranges, r.1 ≤ c.toNat ∧ c.toNat ≤ r.2) ↔ negated = false) := by
      refine exists_congr fun c => and_comm.trans (and_congr Iff.rfl ?_)
      cases negated with
      | false => exact ⟨fun h => ⟨fun _ => rfl, fun _ => h⟩, fun h => h.mpr rfl⟩
      | true => exact (covers_complement hranges c).trans ⟨fun h => ⟨fun hc => absurd hc h, nofun⟩, fun h hc => nomatch h.mp hc⟩
    rw [← hclass]
    have hpath := ha.path ⊥ (fun _ _ _ h => h.elim) 0 word 1 Nat.zero_lt_two Nat.one_lt_two
    rw [sup_bot_eq, sup_bot_eq, hempty, bot_sup_eq] at hpath
    exact hpath.trans (path_only Nat.zero_ne_one)

/-- Ranges out of order, across two lengths and around the surrogates. -/
theorem char_class_utf8_straddling :
    ∃ fsm start stop, charClassAutomaton true [(0xD000, 0xE000), (0x7F, 0x80)] = some (fsm, start, stop)
      ∧ ∀ word, word ∈ fsm.language start stop ↔ ∃ c : Char, word = String.utf8EncodeChar c
        ∧ ((∃ r ∈ [(0xD000, 0xE000), (0x7F, 0x80)], r.1 ≤ c.toNat ∧ c.toNat ≤ r.2) ↔ true = false) :=
  char_class_utf8 true _ (by decide)

end Pie.Proof.CharClasses
