import Pie.Proof.TableHashes

/-!
# Page keys do not depend on the cut

However a list of tokens is cut into pieces, sealing them one after another leaves the
same hashes: those of the slots sealed so far, laid out page by page. The keys that are
computed ahead of the rest are the ones that sealing it would leave.
-/

namespace Pie.Proof.PageKeys

open List Store Kv Table KvStore

variable {hash : Hashing} {page i : Nat} {pre piece slots : List Hash256}

/-! ## Rows of slots -/

/-- The slots of one page. -/
def row (page : Nat) (slots : List Hash256) (i : Nat) : List (Option Hash256) :=
  (List.range page).map fun k => slots[i * page + k]?

/-- What the pages are hashed to once the first slots are sealed. -/
def content (hash : Hashing) (page : Nat) (slots : List Hash256) (i : Nat) : List (Option Hash256) × Option Hash256 :=
  if i * page < slots.length then
    (row page slots i, if (i + 1) * page ≤ slots.length then some (hash.page (row page slots i)) else none)
  else ([], none)

/-- The keys of the full pages. -/
def keysOf (hash : Hashing) (page : Nat) (slots : List Hash256) : List Hash256 :=
  (List.range (slots.length / page)).map fun i => hash.page (row page slots i)

theorem row_append (h : (i + 1) * page ≤ pre.length) : row page (pre ++ piece) i = row page pre i := by
  refine map_congr_left fun k hk => ?_
  have hk := mem_range.mp hk
  rw [Nat.succ_mul] at h
  exact getElem?_append_left (by omega)

theorem row_take {count : Nat} (h : count ≤ page) :
    (row page slots i).take count = (range count).map fun k => slots[i * page + k]? := by
  rw [row, ← map_take, take_range, min_eq_left h]

/-- Every slot of a page is hashed when the slots reach its end. -/
theorem row_all (hpage : 0 < page) : (row page slots i).all Option.isSome = true ↔ (i + 1) * page ≤ slots.length := by
  simp only [row, all_map, all_eq_true, mem_range, Function.comp, Option.isSome_iff_ne_none, ne_eq,
    getElem?_eq_none_iff, Nat.not_le]
  rw [Nat.succ_mul]
  constructor
  · intro h
    have hlast := h (page - 1) (by omega)
    omega
  · intro h k hk
    omega

theorem content_key (hpage : 0 < page) : (content hash page slots i).2 = (keysOf hash page slots)[i]? := by
  have hfull : i < slots.length / page ↔ (i + 1) * page ≤ slots.length := Nat.le_div_iff_mul_le hpage
  unfold content keysOf
  rw [getElem?_map]
  by_cases h : (i + 1) * page ≤ slots.length
  · rw [getElem?_range (hfull.mpr h), if_pos (by rw [Nat.succ_mul] at h; omega), if_pos h]
    rfl
  · rw [getElem?_eq_none (by rw [length_range]; exact not_lt.mp fun hlt => h (hfull.mp hlt)), if_neg h]
    split <;> rfl

/-- A page past the sealed slots has no hashes, and any other its row of them. -/
theorem content_resize {k : Nat} (hk : k < page) :
    (resize (content hash page slots i).1 page)[k]?.join = slots[i * page + k]? := by
  unfold content resize
  split
  · have hlen : (row page slots i).length = page := by rw [row, length_map, length_range]
    rw [take_of_length_le (le_of_eq hlen), hlen, Nat.sub_self, replicate_zero, append_nil, row,
      getElem?_map, getElem?_range hk]
    rfl
  · rw [take_nil, nil_append, length_nil, Nat.sub_zero, getElem?_replicate, if_pos hk, getElem?_eq_none (by omega)]
    rfl

theorem setSlots_eq {start : Nat} : ∀ {count j : Nat} {hashes : List (Option Hash256)}, hashes.length = page →
    j + count ≤ page → start ≤ i * page + j → i * page + j + count ≤ start + piece.length →
    setSlots piece start page (i * page + j) count hashes = some ((range page).map fun k =>
      if j ≤ k ∧ k < j + count then piece[i * page + k - start]? else hashes[k]?.join) := by
  intro count
  induction count with
  | zero =>
    intro j hashes hlen _ _ _
    rw [setSlots]
    congr 1
    refine ext_getElem (by rw [length_map, length_range, hlen]) fun k hk _ => ?_
    rw [getElem_map, getElem_range, if_neg (by omega), getElem?_eq_getElem hk, Option.join_some]
  | succ count ih =>
    intro j hashes hlen hj hstart hstop
    have hslot : i * page + j - start < piece.length := by omega
    have hmod : (i * page + j) % page = j := by
      rw [mul_comm, Nat.mul_add_mod, Nat.mod_eq_of_lt (by omega)]
    rw [setSlots, getElem?_eq_getElem hslot, hmod, Option.bind_eq_bind, Option.bind_some, if_pos (by omega)]
    have hrest := @ih (j + 1) (hashes.set j (some piece[i * page + j - start]))
      (by rw [length_set, hlen]) (by omega) (by omega) (by omega)
    rw [add_assoc]
    rw [← add_assoc] at hrest
    refine hrest.trans (congrArg some (map_congr_left fun k hk => ?_))
    by_cases hkj : k = j
    · subst hkj
      rw [if_neg (by omega), if_pos (by omega), getElem?_set_self (by omega), Option.join_some,
        getElem?_eq_getElem hslot]
    · rw [getElem?_set_ne (Ne.symm hkj)]
      by_cases hin : j ≤ k ∧ k < j + (count + 1)
      · rw [if_pos (by omega), if_pos hin]
      · rw [if_neg (by omega), if_neg hin]

/-! ## Sealing -/

variable {s : KvStore} {ws : WorkingSetId} {mapped : Nat}

theorem sealPages_eq (hpage : 0 < page) (h : Paged s ws mapped (content hash page pre)) : ∀ {indexes : List Nat},
    (∀ i ∈ indexes, i < mapped ∧ pre.length < (i + 1) * page ∧ i * page < pre.length + piece.length) →
    sealPages hash s ws pre.length piece page indexes =
      some (.ok (indexes.map (content hash page (pre ++ piece)))) := by
  intro indexes
  induction indexes with
  | nil => exact fun _ => rfl
  | cons i indexes ih =>
    intro hin
    obtain ⟨hi, hfirst, hstop⟩ := hin i mem_cons_self
    have hrest := ih fun i hi => hin i (mem_cons_of_mem _ hi)
    have hlen : (resize (content hash page pre i).1 page).length = page := by
      rw [resize, length_append, length_take, length_replicate]
      omega
    rw [Nat.succ_mul] at hfirst
    obtain ⟨j, hj⟩ : ∃ j, max (i * page) pre.length = i * page + j := ⟨max (i * page) pre.length - i * page, by omega⟩
    have hslots := @setSlots_eq page i piece pre.length
      (min ((i + 1) * page) (pre.length + piece.length) - (i * page + j)) j _ hlen
      (by rw [Nat.succ_mul]; omega) (by omega) (by omega)
    have hrow : ((range page).map fun k =>
        if j ≤ k ∧ k < j + (min ((i + 1) * page) (pre.length + piece.length) - (i * page + j)) then
          piece[i * page + k - pre.length]?
        else (resize (content hash page pre i).1 page)[k]?.join) = row page (pre ++ piece) i := by
      refine map_congr_left fun k hk => ?_
      have hk := mem_range.mp hk
      rw [content_resize hk]
      split
      · rw [getElem?_append_right (by omega)]
      · rename_i hout
        rw [Nat.succ_mul] at hout
        rcases lt_or_ge (i * page + k) pre.length with hlt | hge
        · rw [getElem?_append_left hlt]
        · rw [getElem?_eq_none hge, getElem?_eq_none (by rw [length_append]; omega)]
    have hcontent : content hash page (pre ++ piece) i = (row page (pre ++ piece) i,
        if (row page (pre ++ piece) i).all Option.isSome then some (hash.page (row page (pre ++ piece) i)) else none) := by
      rw [content, if_pos (by rw [length_append]; exact hstop)]
      simp only [row_all hpage]
    simp only [sealPages, h.tokens hi, hj, hslots, hrow, hrest, Option.bind_eq_bind, Option.bind_some,
      map_cons, hcontent]

theorem pages_of_span (hpage : 0 < page) (i : Nat) : (pre.length / page ≤ i ∧
    i < pre.length / page + ((pre.length + piece.length + page - 1) / page - pre.length / page)) ↔
    pre.length < (i + 1) * page ∧ i * page < pre.length + piece.length := by
  have hfirst : pre.length / page < i + 1 ↔ pre.length < (i + 1) * page := Nat.div_lt_iff_lt_mul hpage
  have hlast : i + 1 ≤ (pre.length + piece.length + page - 1) / page ↔
      (i + 1) * page ≤ pre.length + piece.length + page - 1 := Nat.le_div_iff_mul_le hpage
  rw [Nat.succ_mul] at hlast
  rw [← hfirst]
  omega

variable {pageSize : Nat} {domain : Hash256}

/-- **Sealing a piece** leaves the pages as all the slots up to its end lay them out. -/
theorem sealRows_spec (h : Paged s ws mapped (content hash (max pageSize 1) pre))
    (hfit : pre.length + piece.length ≤ mapped * max pageSize 1) :
    ∃ count s', s.sealRows hash ws pre.length piece pageSize = some (.ok count, s') ∧
      Paged s' ws mapped (content hash (max pageSize 1) (pre ++ piece)) ∧ s'.domain = s.domain := by
  have hpage : 0 < max pageSize 1 := by omega
  generalize hp : max pageSize 1 = page at *
  by_cases hpiece : piece = []
  · subst hpiece
    rw [append_nil]
    exact ⟨0, s, rfl, h, rfl⟩
  · have hindex := @pages_of_span page pre piece hpage
    generalize hcount : (pre.length + piece.length + page - 1) / page - pre.length / page = count at hindex
    have hpages := @sealPages_eq _ _ _ piece _ _ _ hpage h (range' (pre.length / page) count) fun i hi => by
      obtain ⟨hlo, hhi⟩ := mem_range'_1.mp hi
      obtain ⟨hfirst, hstop⟩ := (hindex i).mp ⟨hlo, hhi⟩
      exact ⟨Nat.lt_of_mul_lt_mul_right (lt_of_lt_of_le hstop hfit), hfirst, hstop⟩
    have hrest : ∀ i, ¬ (pre.length / page ≤ i ∧ i < pre.length / page + count) →
        content hash page (pre ++ piece) i = content hash page pre i := by
      intro i hi
      rw [hindex i] at hi
      have hmul : (i + 1) * page = i * page + page := Nat.succ_mul i page
      unfold content
      rw [length_append]
      by_cases hfull : (i + 1) * page ≤ pre.length
      · rw [if_pos (by omega), if_pos (by omega), if_pos (by omega), if_pos hfull, row_append hfull]
      · have hpast : ¬ i * page < pre.length + piece.length := fun hlt => hi ⟨not_le.mp hfull, hlt⟩
        rw [if_neg hpast, if_neg (by omega)]
    have hend : pre.length / page + count ≤ mapped := by
      by_contra hlt
      have hlast := (hindex mapped).mp
      have hle : pre.length / page ≤ mapped :=
        Nat.div_le_of_le_mul (by rw [mul_comm]; omega)
      exact absurd (hlast ⟨hle, by omega⟩).2 (by omega)
    obtain ⟨table, hcommit, hpaged⟩ := h.commit hend hrest
    refine ⟨((range' (pre.length / page) count).map (content hash page (pre ++ piece))).countP fun p => p.2.isSome, _,
      ?_, hpaged, rfl⟩
    simp only [sealRows, hp, List.isEmpty_iff, hpiece, if_false, hcount, hpages, hcommit, Option.bind_eq_bind,
      Option.bind_some]

theorem chainRoot_eq (h : Paged s ws mapped (content hash (max pageSize 1) pre))
    (hfit : pre.length ≤ mapped * max pageSize 1) :
    s.chainRoot ws pre.length pageSize = some (.ok (some pre.getLast?)) := by
  have hpage : 0 < max pageSize 1 := by omega
  generalize hp : max pageSize 1 = page at *
  cases hlen : pre.length with
  | zero =>
    rw [length_eq_zero_iff.mp hlen]
    rfl
  | succ last =>
    have hi : last / page < mapped := (Nat.div_lt_iff_lt_mul hpage).mpr (by omega)
    have hcut := Nat.div_mul_le_self last page
    have hlast : last < pre.length := by omega
    have hslot : (row page pre (last / page))[last % page]? = some (some pre[last]) := by
      rw [row, getElem?_map, getElem?_range (Nat.mod_lt _ hpage), Option.map_some, Nat.div_add_mod' last page,
        getElem?_eq_getElem hlast]
    rw [getLast?_eq_getElem?, hlen, Nat.add_sub_cancel, getElem?_eq_getElem hlast]
    simp only [chainRoot, hp, h.tokens hi, content, if_pos (show last / page * page < pre.length by omega), hslot,
      Option.bind_eq_bind, Option.bind_some, Option.join_some, Option.map_some]

/-! ## A list cut into pieces -/

/-- Every piece chained to the slot before it and sealed; `false` when no hash names what follows. -/
def sealAll (hash : Hashing) (ws : WorkingSetId) (pageSize : Nat) :
    KvStore → Nat → List (List Nat) → Option (StoreResult Bool)
  | s, _, [] => some (.ok true, s)
  | s, start, piece :: pieces => do
    match ← s.chainRoot ws start pageSize with
    | .error e => some (.error e, s)
    | .ok none => some (.ok false, s)
    | .ok (some prev) =>
      match ← s.sealRows hash ws start (chainSlots hash s.domain prev start piece) pageSize with
      | (.error e, s) => some (.error e, s)
      | (.ok _, s) => sealAll hash ws pageSize s (start + piece.length) pieces

theorem chainSlots_length : ∀ {tokens : List Nat} {prev : Option Hash256} {position : Nat},
    (chainSlots hash domain prev position tokens).length = tokens.length
  | [], _, _ => rfl
  | _ :: _, _, _ => congrArg (· + 1) chainSlots_length

theorem chainSlots_append {rest : List Nat} : ∀ {tokens : List Nat} {prev : Option Hash256}
    {position : Nat}, chainSlots hash domain prev position (tokens ++ rest) =
      chainSlots hash domain prev position tokens ++
        chainSlots hash domain ((chainSlots hash domain prev position tokens).getLast?.or prev)
          (position + tokens.length) rest := by
  intro tokens
  induction tokens with
  | nil => exact fun {prev position} => rfl
  | cons token tokens ih =>
    intro prev position
    have hlast : ∀ (l : List Hash256) (slot : Hash256), (slot :: l).getLast?.or prev = l.getLast?.or (some slot) := by
      intro l slot
      rw [getLast?_cons]
      cases l.getLast? <;> rfl
    have hlen : position + (token :: tokens).length = position + 1 + tokens.length := by
      rw [length_cons]
      omega
    rw [cons_append, chainSlots, chainSlots, ih, cons_append, hlast, hlen]

/-- The slots of tokens from the first on. -/
def slotsOf (hash : Hashing) (domain : Hash256) (tokens : List Nat) : List Hash256 :=
  chainSlots hash domain none 0 tokens

theorem slotsOf_append {tokens rest : List Nat} : slotsOf hash domain (tokens ++ rest) =
    slotsOf hash domain tokens ++ chainSlots hash domain (slotsOf hash domain tokens).getLast? tokens.length rest := by
  rw [slotsOf, chainSlots_append, zero_add, Option.or_none]
  rfl

/-- **Sealing the pieces** leaves the pages as one list of slots lays them out. -/
theorem sealAll_spec : ∀ {pieces : List (List Nat)} {s : KvStore} {done : List Nat},
    Paged s ws mapped (content hash (max pageSize 1) (slotsOf hash domain done)) → s.domain = domain →
    done.length + pieces.flatten.length ≤ mapped * max pageSize 1 →
    ∃ s', sealAll hash ws pageSize s done.length pieces = some (.ok true, s') ∧
      Paged s' ws mapped (content hash (max pageSize 1) (slotsOf hash domain (done ++ pieces.flatten))) := by
  intro pieces
  induction pieces with
  | nil =>
    intro s done h _ _
    rw [flatten_nil, append_nil]
    exact ⟨s, rfl, h⟩
  | cons piece pieces ih =>
    intro s done h hdomain hfit
    have hlen : (slotsOf hash domain done).length = done.length := chainSlots_length
    rw [flatten_cons, length_append] at hfit
    have hroot := chainRoot_eq h (by rw [hlen]; omega)
    obtain ⟨count, s', hrows, hpaged, hdomain'⟩ := @sealRows_spec _ _
      (chainSlots hash domain (slotsOf hash domain done).getLast? done.length piece) _ _ _ _ h
      (by rw [hlen, chainSlots_length]; omega)
    rw [← slotsOf_append] at hpaged
    obtain ⟨s'', hrest, hpaged'⟩ := ih hpaged (hdomain'.trans hdomain) (by rw [length_append]; omega)
    rw [length_append] at hrest
    rw [append_assoc] at hpaged'
    rw [hlen] at hroot hrows
    refine ⟨s'', ?_, flatten_cons ▸ hpaged'⟩
    simp only [sealAll, hroot, hdomain, hrows, hrest, Option.bind_eq_bind, Option.bind_some]

/-! ## Keys computed ahead -/

theorem sealedKeys_eq (hpage : 0 < page) (h : Paged s ws mapped (content hash page slots)) : ∀ {indexes : List Nat},
    (∀ i ∈ indexes, i < mapped ∧ i < slots.length / page) → s.sealedKeys ws indexes =
      some (.ok (some (indexes.map fun i => hash.page (row page slots i)))) := by
  intro indexes
  induction indexes with
  | nil => exact fun _ => rfl
  | cons i indexes ih =>
    intro hin
    obtain ⟨hi, hfull⟩ := hin i mem_cons_self
    have hkey : (content hash page slots i).2 = some (hash.page (row page slots i)) := by
      rw [content_key hpage, keysOf, getElem?_map, getElem?_range hfull]
      rfl
    simp only [sealedKeys, h.key hi, hkey, ih fun i hi => hin i (mem_cons_of_mem _ hi), Option.bind_eq_bind,
      Option.bind_some, Option.map_some, map_cons]

/-- The slots past the last full page. -/
def partly (page : Nat) (slots : List Hash256) : List (Option Hash256) :=
  (List.range (slots.length % page)).map fun k => slots[slots.length / page * page + k]?

theorem heldSlots_eq (hpage : 0 < page) (h : Paged s ws mapped (content hash page slots))
    (hfit : slots.length ≤ mapped * page) :
    s.heldSlots ws slots.length page = some (.ok (some (partly page slots))) := by
  unfold heldSlots
  split
  · rename_i hmod
    rw [partly, hmod]
    rfl
  · rename_i hmod
    have hdiv := Nat.div_add_mod' slots.length page
    have hlt : slots.length / page * page < slots.length := by omega
    have hi : slots.length / page < mapped := Nat.lt_of_mul_lt_mul_right (lt_of_lt_of_le hlt hfit)
    have hle := le_of_lt (Nat.mod_lt slots.length hpage)
    have hrow : (row page slots (slots.length / page)).length = page := by rw [row, length_map, length_range]
    have hheld : resize (row page slots (slots.length / page)) (slots.length % page) = partly page slots := by
      rw [resize, hrow, Nat.sub_eq_zero_of_le hle, replicate_zero, append_nil, row_take hle]
      rfl
    have hall : (partly page slots).all Option.isSome = true := by
      rw [partly, all_map, all_eq_true]
      intro k hk
      have hk := mem_range.mp hk
      rw [Function.comp_apply, getElem?_eq_getElem (by omega)]
      rfl
    simp only [h.tokens hi, content, if_pos hlt, hheld, hall, if_true, Option.bind_eq_bind, Option.bind_some]

/-- A slot more makes the last page one slot longer. -/
theorem partly_concat (slot : Hash256) : ((range (slots.length % page + 1)).map fun k =>
    (slots ++ [slot])[slots.length / page * page + k]?) = partly page slots ++ [some slot] := by
  have hdiv := Nat.div_add_mod' slots.length page
  rw [range_succ, map_append, partly, map_singleton, hdiv, getElem?_concat_length]
  congr 1
  refine map_congr_left fun k hk => ?_
  have hk := mem_range.mp hk
  exact getElem?_append_left (by omega)

/-- **Pushing slots** gives the keys that all of them give. -/
theorem pushSlots_eq (hpage : 0 < page) : ∀ {rest slots : List Hash256},
    pushSlots hash page (keysOf hash page slots) (partly page slots) rest = keysOf hash page (slots ++ rest) := by
  intro rest
  induction rest with
  | nil =>
    intro slots
    rw [append_nil]
    rfl
  | cons slot rest ih =>
    intro slots
    have hdiv := Nat.div_add_mod' slots.length page
    have hmod := Nat.mod_lt slots.length hpage
    have hlen : (partly page slots ++ [some slot]).length = slots.length % page + 1 := by
      rw [length_append, partly, length_map, length_range]
      rfl
    have hkeys : ((range (slots.length / page)).map fun i => hash.page (row page (slots ++ [slot]) i)) =
        keysOf hash page slots := by
      refine map_congr_left fun i hi => ?_
      have hi : i + 1 ≤ slots.length / page := mem_range.mp hi
      rw [row_append ((Nat.le_div_iff_mul_le hpage).mp hi)]
    have hnext : slots ++ slot :: rest = (slots ++ [slot]) ++ rest := by
      rw [append_assoc]
      rfl
    have hlen' : (slots ++ [slot]).length = slots.length / page * page + (slots.length % page + 1) := by
      rw [length_append, length_singleton]
      omega
    rw [pushSlots, hlen, hnext, ← ih]
    split
    · rename_i hfull
      have hpages : (slots ++ [slot]).length = (slots.length / page + 1) * page := by
        rw [hlen', hfull, Nat.succ_mul]
      have hrow : row page (slots ++ [slot]) (slots.length / page) = partly page slots ++ [some slot] := by
        rw [← partly_concat, hfull]
        rfl
      have hpartly : partly page (slots ++ [slot]) = [] := by
        rw [partly, hpages, Nat.mul_mod_left]
        rfl
      have hall : keysOf hash page (slots ++ [slot]) =
          keysOf hash page slots ++ [hash.page (partly page slots ++ [some slot])] := by
        rw [← hkeys, ← hrow, keysOf, hpages, Nat.mul_div_cancel _ hpage, range_succ, map_append]
        rfl
      rw [hall, hpartly]
    · rename_i hopen
      have hmod' : (slots ++ [slot]).length % page = slots.length % page + 1 := by
        rw [hlen', mul_comm, Nat.mul_add_mod, Nat.mod_eq_of_lt (show slots.length % page + 1 < page by omega)]
      have hdiv' : (slots ++ [slot]).length / page = slots.length / page := by
        rw [hlen', mul_comm, Nat.mul_add_div hpage, Nat.div_eq_of_lt (show slots.length % page + 1 < page by omega),
          add_zero]
      have hpartly : partly page (slots ++ [slot]) = partly page slots ++ [some slot] := by
        rw [← partly_concat, partly, hmod', hdiv']
      have hall : keysOf hash page (slots ++ [slot]) = keysOf hash page slots := by
        rw [← hkeys, keysOf, hdiv']
      rw [hall, hpartly]

/-- **Keys computed ahead** are those of all the slots. -/
theorem pageKeys_eq (h : Paged s ws mapped (content hash (max pageSize 1) pre))
    (hfit : pre.length ≤ mapped * max pageSize 1) : s.pageKeys hash ws pre.length slots pageSize =
      some (.ok (some (keysOf hash (max pageSize 1) (pre ++ slots)))) := by
  have hpage : 0 < max pageSize 1 := by omega
  generalize hp : max pageSize 1 = page at *
  have hsealed := @sealedKeys_eq _ _ _ _ _ _ hpage h (range (pre.length / page)) fun i hi => by
    have hi := mem_range.mp hi
    exact ⟨lt_of_lt_of_le hi (Nat.div_le_of_le_mul (by rw [mul_comm]; exact hfit)), hi⟩
  have hkeys : ((range (pre.length / page)).map fun i => hash.page (row page pre i)) = keysOf hash page pre := rfl
  simp only [pageKeys, hp, hsealed, heldSlots_eq hpage h hfit, hkeys, pushSlots_eq hpage, Option.bind_eq_bind,
    Option.bind_some]

/-! ## The cut -/

/-- A working set whose mapped pages are as they were handed out. -/
structure Fresh (s : KvStore) (ws : WorkingSetId) (mapped : Nat) : Prop where
  reachable : TableReachable s.table
  entry : ∃ e, s.table.workingSets.get ws = some e ∧ e.mappedLen = mapped
  tokens : ∀ i < mapped, s.table.pageTokenHashes ws i = some (.ok [])
  keys : ∀ i < mapped, s.table.pageHashAt ws i = some (.ok none)

theorem Fresh.paged (h : Fresh s ws mapped) : Paged s ws mapped (content hash page []) := by
  have hinv := tableInv_reachable h.reachable
  obtain ⟨e, he, hmapped⟩ := h.entry
  refine ⟨hinv, e, he, hmapped, fun i l hl => ?_⟩
  have hi : i < mapped := hmapped ▸ (hinv.page_lt he).mpr ⟨l, hl⟩
  obtain ⟨⟨tokens, key⟩, hq⟩ := hinv.hashesOf_some he (mem_of_getElem? hl)
  have htokens := h.tokens i hi
  have hkey := h.keys i hi
  simp only [KvPageTable.pageTokenHashes, KvPageTable.pageHashAt, hinv.pageOwner_eq he hl, hq, Option.bind_eq_bind,
    Option.bind_some, Option.map_some, Option.some.injEq, Except.ok.injEq] at htokens hkey
  subst htokens hkey
  exact hq

end Pie.Proof.PageKeys
