import Pie.Kv.Store
import Pie.Proof.TableRun

/-!
# A publish that fails

A publish that fails gives its pages and its number back where it is refused at once,
for commits that are not as many as the targets. Every other failure is an early return:
the number stays outstanding, and the pages are in no list. So what matters is whether
the working set is there and admits the targets.
-/

namespace Pie.Proof.Publishing

open List Option Store Kv Lib KvStore

variable {s : KvStore} {t : KvPageTable} {prepared : KvPreparedWrite} {commits : List PageCommit}
  {pairs : List (PreparedTarget × PageCommit)} {ws : WorkingSetId} {e : WorkingSetEntry}

/-- If the publish failed, the write's pages are in the pool's lists again, its number is not outstanding, and
the table is as it was. -/
def GivesBack (s : KvStore) (prepared : KvPreparedWrite) (result : StoreResult Nat) : Prop :=
  ∀ error, result.1 = .error error → (∀ id ∈ prepared.allocated, id ∈ result.2.pool.ids) ∧
    prepared.seq ∉ result.2.outstanding ∧ result.2.table = s.table

/-- The working set is there, and its entry is so. -/
def Has (t : KvPageTable) (ws : WorkingSetId) (P : WorkingSetEntry → Prop) : Prop :=
  ∃ e, t.workingSets.get ws = some e ∧ P e

theorem has_iff {P : WorkingSetEntry → Prop} (he : t.workingSets.get ws = some e) : Has t ws P ↔ P e := by
  constructor
  · intro ⟨e', he', hp⟩
    rw [he] at he'
    exact some.inj he' ▸ hp
  · exact fun hp => ⟨e, he, hp⟩

theorem not_has {P : WorkingSetEntry → Prop} (he : t.workingSets.get ws = none) : ¬ Has t ws P := by
  intro ⟨e', he', _⟩
  rw [he] at he'
  cases he'

/-- Every page written in place is mapped. -/
def Mapped (t : KvPageTable) (ws : WorkingSetId) (targets : List PreparedTarget) : Prop :=
  ∀ index dst, .inPlace index dst ∈ targets → Has t ws (index < ·.mappedLen)

/-- The reservation holds the pages, in the place of the tail or past the mapped end. -/
def Room (t : KvPageTable) (ws : WorkingSetId) (cowStart : Option Nat) (count : Nat) : Prop :=
  match cowStart with
  | some start => Has t ws fun e => start ≤ e.mappedLen ∧ start + count ≤ e.pageLen
  | none => count = 0 ∨ Has t ws fun e => e.mappedLen + count ≤ e.pageLen

/-- The working set is there and admits the targets. -/
structure Admits (t : KvPageTable) (prepared : KvPreparedWrite) : Prop where
  mapped : Mapped t prepared.ws prepared.targets
  room : Room t prepared.ws prepared.cowStart (prepared.targets.countP fun target => target.mapped.isSome)

theorem cancelPrepared_gives_back (error : KvStoreError) :
    GivesBack s prepared (.error error, s.cancelPrepared prepared) := by
  intro _ _
  refine ⟨fun id hid => ?_, Finset.notMem_erase _ _, rfl⟩
  refine (Pool.ids_retireThrough _ _).mem_iff.mpr ?_
  rw [Pool.ids_recycleAfterEpoch]
  exact mem_append_right _ hid

/-- A commit in place, where the page is mapped and where it is not. -/
theorem commitInPlace_cases (h : TableInv t) (index : Nat) (tokens : List (Option Hash256)) (page : Option Hash256) :
    (Has t ws (index < ·.mappedLen) ∧ ∃ t', t.commitInPlace ws index tokens page = some (.ok (), t') ∧ Quiet t t') ∨
    (¬ Has t ws (index < ·.mappedLen) ∧ ∃ error, t.commitInPlace ws index tokens page = some (.error error, t)) := by
  cases he : t.workingSets.get ws with
  | none =>
    refine .inr ⟨not_has he, .unknownWorkingSet, ?_⟩
    simp [KvPageTable.commitInPlace, KvPageTable.pageOwner, entry_none he]
  | some e =>
    by_cases hi : index < e.mappedLen
    · exact .inl ⟨(has_iff he).mpr hi, commitInPlace_spec h he hi tokens page⟩
    · refine .inr ⟨fun hhas => hi ((has_iff he).mp hhas), .unwritten index e.mappedLen, ?_⟩
      simp [KvPageTable.commitInPlace, TableInv.pageOwner_unwritten he (not_lt.mp hi)]

/-- The commits go through where every page written in place is mapped; the first that is not stops them. -/
theorem commitTargets_cases : ∀ {pairs : List (PreparedTarget × PageCommit)} {s : KvStore}, TableInv s.table →
    (Mapped s.table ws (pairs.map Prod.fst) ∧ ∃ s', commitTargets ws pairs s = some (.ok (), s') ∧
      TableInv s'.table ∧ s'.table.workingSets = s.table.workingSets ∧ s'.outstanding = s.outstanding) ∨
    (¬ Mapped s.table ws (pairs.map Prod.fst) ∧ ∃ error s', commitTargets ws pairs s = some (.error error, s') ∧
      s'.outstanding = s.outstanding) := by
  intro pairs
  induction pairs with
  | nil => exact fun h => .inl ⟨nofun, _, rfl, h, rfl, rfl⟩
  | cons pair pairs ih =>
    intro s h
    obtain ⟨target, commit⟩ := pair
    -- a target that is not written in place is passed over
    have hskip : (∀ index dst, target ≠ .inPlace index dst) →
        (Mapped s.table ws (target :: pairs.map Prod.fst) ↔ Mapped s.table ws (pairs.map Prod.fst)) := by
      intro hne
      constructor
      · exact fun hm index dst hin => hm index dst (mem_cons_of_mem _ hin)
      · intro hm index dst hin
        rcases mem_cons.mp hin with heq | hin
        · exact absurd heq.symm (hne index dst)
        · exact hm index dst hin
    match target with
    | .fresh _ _ | .cow _ _ _ =>
      rw [map_cons, hskip (by intros; nofun)]
      exact ih h
    | .inPlace index dst =>
      rcases @commitInPlace_cases s.table ws h index commit.tokenHashes commit.pageHash with
        ⟨hhas, table, hrun, hquiet⟩ | ⟨hbad, error, hrun⟩
      · have hsets : table.workingSets = s.table.workingSets := hquiet.rest.workingSets
        have hmapped : Mapped s.table ws (.inPlace index dst :: pairs.map Prod.fst) ↔
            Mapped table ws (pairs.map Prod.fst) := by
          unfold Mapped Has
          rw [hsets]
          constructor
          · exact fun hm i d hin => hm i d (mem_cons_of_mem _ hin)
          · intro hm i d hin
            rcases mem_cons.mp hin with heq | hin
            · cases heq
              exact hhas
            · exact hm i d hin
        have hrest := @ih { s with table := table } (hquiet.inv h)
        rw [map_cons, hmapped]
        simp only [commitTargets, hrun, bind_eq_bind, bind_some]
        rcases hrest with ⟨hm, s', hrun', hinv, hsets', hout⟩ | ⟨hm, error, s', hrun', hout⟩
        · exact .inl ⟨hm, s', hrun', hinv, hsets'.trans hsets, hout⟩
        · exact .inr ⟨hm, error, s', hrun', hout⟩
      · refine .inr ⟨fun hm => hbad (hm index dst mem_cons_self), .table error, s, ?_, rfl⟩
        simp only [commitTargets, hrun, bind_eq_bind, bind_some]

theorem placePages_cases (h : TableInv t) (cowStart : Option Nat) (pages : List PublishedPage) :
    (Room t ws cowStart pages.length ∧ ∃ freed t', placePages t ws cowStart pages = some (.ok freed, t') ∧
      TableInv t') ∨
    (¬ Room t ws cowStart pages.length ∧ ∃ error t', placePages t ws cowStart pages = some (.error error, t')) := by
  unfold Room placePages
  cases cowStart with
  | some start =>
    cases he : t.workingSets.get ws with
    | none => exact .inr ⟨not_has he, _, _, replaceTail_error he start pages⟩
    | some e =>
      dsimp only
      rw [has_iff he]
      by_cases hstart : start ≤ e.mappedLen
      · by_cases hfit : start + pages.length ≤ e.pageLen
        · obtain ⟨freed, term, t', hrun, hchanged, _⟩ := replaceTail_spec h he hstart hfit
          exact .inl ⟨⟨hstart, hfit⟩, freed, t', hrun, hchanged.inv⟩
        · exact .inr ⟨fun hroom => hfit hroom.2, _, _, replaceTail_full he hstart (not_le.mp hfit)⟩
      · exact .inr ⟨fun hroom => hstart hroom.1, _, _, replaceTail_bad he (not_le.mp hstart)⟩
  | none =>
    dsimp only
    by_cases hpages : pages = []
    · subst hpages
      exact .inl ⟨.inl rfl, [], t, rfl, h⟩
    · have hne : ¬ pages.length = 0 := fun hlen => hpages (length_eq_zero_iff.mp hlen)
      rw [if_neg (by rw [List.isEmpty_iff]; exact hpages), or_iff_right hne]
      cases he : t.workingSets.get ws with
      | none => exact .inr ⟨not_has he, _, _, by rw [publishAppended_error he pages]; rfl⟩
      | some e =>
        rw [has_iff he]
        by_cases hfit : e.mappedLen + pages.length ≤ e.pageLen
        · obtain ⟨term, t', hrun, hchanged, _⟩ := publishAppended_spec h he hfit
          exact .inl ⟨hfit, [], t', by rw [hrun]; rfl, hchanged.inv⟩
        · exact .inr ⟨hfit, _, _, by rw [publishAppended_full he (not_le.mp hfit)]; rfl⟩

theorem publishedPages_length : ∀ {pairs : List (PreparedTarget × PageCommit)}, (publishedPages pairs).length =
    (pairs.map Prod.fst).countP fun target => target.mapped.isSome
  | [] => rfl
  | (target, commit) :: pairs => by
    have ih := @publishedPages_length pairs
    unfold publishedPages at ih ⊢
    cases hmapped : target.mapped with
    | none => simp [hmapped, ih]
    | some dst => simp [hmapped, ih]

theorem refreshFlat_some (ws : WorkingSetId) (h : TableInv s.table) : ∃ s', s.refreshFlat ws = some s' := by
  cases he : s.table.workingSets.get ws with
  | none => exact ⟨_, by simp only [refreshFlat, KvPageTable.flatten, entry_none he]; rfl⟩
  | some e => exact ⟨_, by simp only [refreshFlat, h.flatten_eq he]; rfl⟩

/-- A working set reserved a page, and was released before the page was published. -/
def abandonedTable : KvPageTable :=
  (((KvPageTable.new.createWorkingSet.2.reserve ⟨0, 0⟩ 1).2.releaseWorkingSetBackings ⟨0, 0⟩).map Prod.snd).getD .new

theorem abandonedTable_reachable : TableReachable abandonedTable :=
  let hcreated := @TableReachable.tail _ _ .createWorkingSet .new trivial rfl
  let hreserved := @TableReachable.tail _ _ (.reserve ⟨0, 0⟩ 1) hcreated trivial rfl
  @TableReachable.tail _ _ (.release ⟨0, 0⟩) hreserved trivial rfl

/-- The store then: its only page is the prepared write's. -/
def abandoned : KvStore :=
  { KvStore.new 1 0 0 0 with table := abandonedTable, pool := { Pool.new 1 with free := [] }, seq := 1, outstanding := {1} }

def write : KvPreparedWrite := ⟨⟨0, 0⟩, [.fresh 0 ⟨0⟩], [⟨0⟩], none, 1⟩

end Pie.Proof.Publishing
