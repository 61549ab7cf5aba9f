import Pie.Kv.PageTable

/-!
# The token log

What a working set's slots hold, as far as every write to them is known. A fire on its
way may change its slots from its cut on, so what is told ends at the least cut.
-/

namespace Pie.Kv.KvPageTable

/-- What follows `start` is dropped first; logged only where the log reaches `start`. -/
def logRows (t : KvPageTable) (ws : WorkingSetId) (start : Nat) (tokens : List Nat) : TableResult Unit :=
  match t.entry ws with
  | .error e => (.error e, t)
  | .ok entry =>
    let kept := entry.logged.take start
    let logged := if kept.length = start then kept ++ tokens else kept
    (.ok (), t.setEntry ws { entry with logged := logged })

def logBegin (t : KvPageTable) (ws : WorkingSetId) (seq cut : Nat) : TableResult Unit :=
  match t.entry ws with
  | .error e => (.error e, t)
  | .ok entry =>
    (.ok (), t.setEntry ws { entry with pending := entry.pending.filter (fun p => p.1 ≠ seq) ++ [(seq, cut)] })

def logEnd (t : KvPageTable) (ws : WorkingSetId) (seq : Nat) (rows : Option (Nat × List Nat)) : TableResult Unit :=
  match t.entry ws with
  | .error e => (.error e, t)
  | .ok entry =>
    match entry.pending.find? (fun p => p.1 = seq) with
    | none => (.ok (), t)
    | some (_, cut) =>
      let entry := { entry with pending := entry.pending.filter (fun p => p.1 ≠ seq) }
      match rows with
      | some (start, tokens) => (t.setEntry ws entry).logRows ws start tokens
      | none => (.ok (), t.setEntry ws { entry with logged := entry.logged.take cut })

def logged (t : KvPageTable) (ws : WorkingSetId) : Except KvTableError (List Nat) :=
  (t.entry ws).map WorkingSetEntry.known

end Pie.Kv.KvPageTable
