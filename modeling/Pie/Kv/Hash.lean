import Pie.Kv.PageTable

/-!
# Content keys

A token slot's hash chains the one before it, its token and its position under a domain,
so it names the whole prefix up to that slot; a page's key hashes its slots'. The hash
functions themselves are parameters.
-/

namespace Pie.Kv

/-- `chain_token_slot_hash` and `page_hash`. -/
structure Hashing where
  slot : Hash256 → Option Hash256 → Nat → Nat → Hash256
  page : List (Option Hash256) → Hash256

def chainSlots (hash : Hashing) (domain : Hash256) : Option Hash256 → Nat → List Nat → List Hash256
  | _, _, [] => []
  | prev, position, token :: tokens =>
    -- positions are hashed as `u32`
    let slot := hash.slot domain prev token (position % 2 ^ 32)
    slot :: chainSlots hash domain (some slot) (position + 1) tokens

end Pie.Kv
