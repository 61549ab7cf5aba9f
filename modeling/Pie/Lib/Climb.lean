import Mathlib

/-!
# Climbing a partial parent function

A forest is usually kept as a parent pointer per node. `path` is what a loop over
such pointers is meant to meet. It never visits a node twice, so the number of
nodes is always enough fuel for the loop.

Nothing here is about any one program: `next` is any partial function.
-/

namespace Pie.Lib

open List

variable {K : Type*}

/-- `l` is everything met when climbing from `k` until there is nowhere to go. -/
inductive IsPath (next : K → Option K) : K → List K → Prop where
  | root {k : K} : next k = none → IsPath next k [k]
  | step {k p : K} {l : List K} : next k = some p → IsPath next p l → IsPath next k (k :: l)

/-- Climbing from `k` ends. -/
def Grounded (next : K → Option K) (k : K) : Prop := ∃ l, IsPath next k l

open Classical in
/-- The nodes from `k` up, `k` first; empty where climbing never ends. -/
noncomputable def path (next : K → Option K) (k : K) : List K :=
  if h : Grounded next k then h.choose else []

variable {next next' : K → Option K} {k p a b : K} {l l' : List K}

theorem IsPath.unique (h : IsPath next k l) (h' : IsPath next k l') : l = l' := by
  induction h generalizing l' with
  | root hk =>
    cases h' with
    | root _ => rfl
    | step hk' _ => rw [hk] at hk'; simp at hk'
  | step hk _ ih =>
    cases h' with
    | root hk' => rw [hk] at hk'; simp at hk'
    | step hk' hl =>
      rw [hk] at hk'
      cases hk'
      rw [ih hl]

theorem IsPath.grounded (h : IsPath next k l) : Grounded next k := ⟨l, h⟩

theorem path_eq (h : IsPath next k l) : path next k = l := by
  have hg := h.grounded
  unfold path
  rw [dif_pos hg]
  exact hg.choose_spec.unique h

theorem Grounded.isPath (h : Grounded next k) : IsPath next k (path next k) := by
  obtain ⟨l, hl⟩ := h
  rw [path_eq hl]
  exact hl

theorem grounded_root (h : next k = none) : Grounded next k := ⟨_, .root h⟩

theorem grounded_step (h : next k = some p) (hp : Grounded next p) : Grounded next k :=
  ⟨_, .step h hp.isPath⟩

theorem Grounded.above (hg : Grounded next k) (h : next k = some p) : Grounded next p := by
  obtain ⟨l, hl⟩ := hg
  cases hl with
  | root hk => rw [h] at hk; simp at hk
  | step hk hl =>
    rw [h] at hk
    cases hk
    exact ⟨_, hl⟩

theorem path_root (h : next k = none) : path next k = [k] := path_eq (.root h)

theorem path_step (h : next k = some p) (hp : Grounded next p) :
    path next k = k :: path next p := path_eq (.step h hp.isPath)

theorem mem_path_self (h : Grounded next k) : k ∈ path next k := by
  obtain ⟨l, hl⟩ := h
  rw [path_eq hl]
  cases hl <;> exact mem_cons_self

/-- Everything on a path is grounded, and its own path is the rest of the one it is on. -/
theorem IsPath.suffix (h : IsPath next k l) (ha : a ∈ l) : ∃ l₁, l = l₁ ++ path next a ∧ Grounded next a := by
  induction h with
  | root hk =>
    rw [mem_singleton.mp ha]
    exact ⟨[], by simp [path_root hk], grounded_root hk⟩
  | @step k p l hk hl ih =>
    rcases mem_cons.mp ha with rfl | ha
    · exact ⟨[], by simp [path_eq (.step hk hl)], ⟨_, .step hk hl⟩⟩
    · obtain ⟨l₁, he, hg⟩ := ih ha
      exact ⟨k :: l₁, by rw [he]; rfl, hg⟩

section

variable (hk : Grounded next k) (ha : a ∈ path next k)
include hk ha

theorem path_suffix : ∃ l₁, path next k = l₁ ++ path next a := by
  obtain ⟨l₁, he, _⟩ := hk.isPath.suffix ha
  exact ⟨l₁, he⟩

theorem grounded_of_mem : Grounded next a := by
  obtain ⟨_, _, hg⟩ := hk.isPath.suffix ha
  exact hg

theorem mem_path_trans (hb : b ∈ path next a) : b ∈ path next k := by
  obtain ⟨l₁, he⟩ := path_suffix hk ha
  rw [he]
  exact mem_append_right _ hb

end

theorem IsPath.nodup (h : IsPath next k l) : l.Nodup := by
  induction h with
  | root _ => simp
  | @step k p l hk hl ih =>
    refine nodup_cons.mpr ⟨?_, ih⟩
    intro hmem
    -- `k` again further up would make its own path shorter than itself
    obtain ⟨l₁, he, _⟩ := hl.suffix hmem
    rw [path_eq (.step hk hl)] at he
    have := congrArg length he
    simp only [length_append, length_cons] at this
    omega

theorem path_nodup (h : Grounded next k) : (path next k).Nodup := h.isPath.nodup

theorem not_mem_path_next (hg : Grounded next k) (h : next k = some p) : k ∉ path next p := by
  have hnd := path_nodup hg
  rw [path_step h (hg.above h)] at hnd
  exact (nodup_cons.mp hnd).1

theorem mem_path_iff (hg : Grounded next k) : a ∈ path next k ↔ a = k ∨ ∃ p, next k = some p ∧ a ∈ path next p := by
  cases h : next k with
  | none => simp [path_root h]
  | some p => rw [path_step h (hg.above h), mem_cons]; simp

theorem path_length_le (h : Grounded next k) {nodes : List K}
    (hsub : ∀ a ∈ path next k, a ∈ nodes) : (path next k).length ≤ nodes.length := by
  classical
  calc (path next k).length = (path next k).toFinset.card :=
        (toFinset_card_of_nodup (path_nodup h)).symm
    _ ≤ nodes.toFinset.card :=
        Finset.card_le_card (fun a ha => by
          rw [mem_toFinset] at ha ⊢
          exact hsub a ha)
    _ ≤ nodes.length := toFinset_card_le nodes

/-- A path ends where there is nowhere to go, and only there. -/
theorem IsPath.ends (h : IsPath next k l) :
    ∃ l₁ r, l = l₁ ++ [r] ∧ next r = none ∧ ∀ a ∈ l₁, ∃ p, next a = some p := by
  induction h with
  | @root k hk => exact ⟨[], k, rfl, hk, by simp⟩
  | @step k p l hk _ ih =>
    obtain ⟨l₁, r, rfl, hr, ha⟩ := ih
    exact ⟨k :: l₁, r, rfl, hr, forall_mem_cons.mpr ⟨⟨p, hk⟩, ha⟩⟩

theorem path_length_le_succ (h : Grounded next k) {nodes : List K}
    (hsub : ∀ a p, next a = some p → a ∈ nodes) : (path next k).length ≤ nodes.length + 1 := by
  classical
  obtain ⟨l₁, r, hl, -, hnext⟩ := h.isPath.ends
  have hnd := path_nodup h
  rw [hl] at hnd ⊢
  have hle : l₁.length ≤ nodes.length := by
    calc l₁.length = l₁.toFinset.card := (toFinset_card_of_nodup hnd.of_append_left).symm
      _ ≤ nodes.toFinset.card :=
          Finset.card_le_card (fun a ha => by
            rw [mem_toFinset] at ha ⊢
            obtain ⟨p, hp⟩ := hnext a ha
            exact hsub a p hp)
      _ ≤ nodes.length := toFinset_card_le nodes
  rw [length_append, length_singleton]
  exact Nat.add_le_add_right hle 1

/-- A node may be pointed at another that has nowhere to go. -/
theorem grounded_redirect {s r : K} (hs : next' s = some r) (hr : next' r = none)
    (hsame : ∀ a, a ≠ s → next' a = next a) (h : Grounded next k) : Grounded next' k := by
  have hgs : Grounded next' s := grounded_step hs (grounded_root hr)
  have key : ∀ {k l}, IsPath next k l → Grounded next' k := by
    intro k l hl
    induction hl with
    | @root k hk =>
      by_cases hks : k = s
      · rw [hks]
        exact hgs
      · exact grounded_root (by rw [hsame k hks, hk])
    | @step k p l hk _ ih =>
      by_cases hks : k = s
      · rw [hks]
        exact hgs
      · exact grounded_step (by rw [hsame k hks, hk]) ih
  exact key h.isPath

theorem IsPath.congr (h : IsPath next k l) (he : ∀ a ∈ l, next' a = next a) : IsPath next' k l := by
  induction h with
  | root hk => exact .root (by rw [he _ mem_cons_self]; exact hk)
  | step hk _ ih =>
    refine .step (by rw [he _ mem_cons_self]; exact hk) (ih ?_)
    intro a ha
    exact he a (mem_cons_of_mem _ ha)

theorem path_congr (h : Grounded next k) (he : ∀ a ∈ path next k, next' a = next a) :
    path next' k = path next k := path_eq (h.isPath.congr he)

theorem grounded_congr (h : Grounded next k) (he : ∀ a ∈ path next k, next' a = next a) :
    Grounded next' k := ⟨_, h.isPath.congr he⟩

/-! ## Two nodes of one path -/

theorem IsPath.linear (h : IsPath next k l) : ∀ a ∈ l, ∀ b ∈ l, a ∈ path next b ∨ b ∈ path next a := by
  induction h with
  | root hk =>
    intro a ha b hb
    rw [mem_singleton.mp ha, mem_singleton.mp hb, path_root hk]
    exact .inl mem_cons_self
  | step hk hl ih =>
    intro a ha b hb
    have hpath := path_eq (.step hk hl)
    rcases mem_cons.mp ha with rfl | ha'
    · exact .inr (hpath ▸ hb)
    · rcases mem_cons.mp hb with rfl | hb'
      · exact .inl (hpath ▸ ha)
      · exact ih a ha' b hb'

section

variable (hk : Grounded next k) (ha : a ∈ path next k)
include hk ha

theorem path_linear (hb : b ∈ path next k) :
    a ∈ path next b ∨ b ∈ path next a := hk.isPath.linear a ha b hb

/-- A node above another is above one of its own steps. -/
theorem exists_child (hne : a ≠ k) :
    ∃ c, next c = some a ∧ c ∈ path next k := by
  have key : ∀ {k l}, IsPath next k l → ∀ a ∈ l, a ≠ k → ∃ c, next c = some a ∧ c ∈ l := by
    intro k l hl
    induction hl with
    | root _ =>
      intro a ha hne
      exact absurd (mem_singleton.mp ha) hne
    | @step k p l hk hl ih =>
      intro a ha hne
      rcases mem_cons.mp ha with rfl | ha
      · exact absurd rfl hne
      · by_cases hap : a = p
        · subst hap
          exact ⟨k, hk, mem_cons_self⟩
        · obtain ⟨c, hc, hcl⟩ := ih a ha hap
          exact ⟨c, hc, mem_cons_of_mem _ hcl⟩
  exact key hk.isPath a ha hne

theorem child_unique (hb : b ∈ path next k)
    (hap : next a = some p) (hbp : next b = some p) : a = b := by
  have key : ∀ {x y : K}, x ∈ path next k → next x = some p → next y = some p →
      y ∈ path next x → y = x := by
    intro x y hx hxp hyp hy
    have hgx := grounded_of_mem hk hx
    rcases (mem_path_iff hgx).mp hy with rfl | ⟨q, hq, hyq⟩
    · rfl
    · rw [hxp] at hq
      cases hq
      exact absurd hyq (not_mem_path_next (grounded_of_mem hgx hy) hyp)
  rcases path_linear hk ha hb with h | h
  · exact key hb hbp hap h
  · exact (key ha hap hbp h).symm

end

theorem not_mem_path_above (hk : Grounded next k) (h : next a = some k) (ha : a ∈ path next k) :
    False := not_mem_path_next (grounded_of_mem hk ha) h ha

/-! ## Reading something off each node of a path, from the top down -/

/-- What the nodes of a path hold, topmost first. -/
noncomputable def gather {β : Type*} (next : K → Option K) (own : K → List β) (k : K) : List β :=
  (path next k).reverse.flatMap own

variable {β : Type*} {own : K → List β}

theorem gather_root (h : next k = none) : gather next own k = own k := by
  simp [gather, path_root h]

theorem gather_step (h : next k = some p)
    (hp : Grounded next p) : gather next own k = gather next own p ++ own k := by
  simp [gather, path_step h hp]

theorem mem_gather {x : β} : x ∈ gather next own k ↔ ∃ a ∈ path next k, x ∈ own a := by
  simp [gather]

theorem gather_congr {own own' : K → List β} (h : Grounded next k)
    (he : ∀ a ∈ path next k, next' a = next a) (ho : ∀ a ∈ path next k, own' a = own a) :
    gather next' own' k = gather next own k := by
  unfold gather
  rw [path_congr h he, flatMap_def, flatMap_def]
  congr 1
  refine map_congr_left ?_
  intro a ha
  exact ho a (mem_reverse.mp ha)

end Pie.Lib
