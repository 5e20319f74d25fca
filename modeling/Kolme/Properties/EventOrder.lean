import Kolme.Core.Chains
import Kolme.Core.Counter

/-!
# The order of bridge events

The events of a chain take effect one after another in the order of their ids, and an event takes
effect only when enough of the listeners of that moment have attested it.
-/

namespace Kolme

variable {env : Externals} {app : App}

/-- Enough current listeners attested the event. -/
def Attested (past : List Effect) (set : ValidatorSet) (chain : ExternalChain)
    (eventId : BridgeEventId) (event : BridgeEvent) : Prop :=
  ∃ keys ⊆ set.listeners, set.neededListeners.val ≤ keys.card ∧
    ∀ key ∈ keys, .attest chain eventId event key ∈ past

namespace EventOrderSample

open Sample

def table : List SignedText := [genesisTx.text, depositTx.text]

theorem table_distinct : (table.map SignedText.signature).Nodup := by decide

def chain : Machine (Node (counter (info validators))) (Call (counter (info validators))) Error :=
  Node.machine (counterEnv table)

theorem mem_table : ∀ t ∈ [genesisTx, depositTx], t.text ∈ table :=
  fun _ => List.mem_map_of_mem

end EventOrderSample

end Kolme
