import RedisXSlot.Handover

/-! Emptying a slot call by call.

A client sends SLOTSMGRTSLOT, or SLOTSMGRTTAGSLOT, until the slot is empty, and between the calls time passes. At any
moment a key is on one side, and each call takes over one key, or one group of tagged keys, as long as the numbers of keys
go into an `int` (`drained`). -/
namespace RedisXSlot
open Interaction

section
variable (hash hash' : Bytes → Nat) (conf : SlotsMetaInfo) (payload : Bytes → Option ValueType)
  (db : Fin conf.databases)

namespace World

end World
end

variable {hash hash' : Bytes → Nat} {conf : SlotsMetaInfo} {payload : Bytes → Option ValueType} {db : Fin conf.databases}

namespace World
variable {slot : Nat} {time : Int} {w m w' : World conf.databases} {moved : Set Bytes} {mconf : MgrtConf}

/-! ### A drain -/

section
variable {keys : Set Bytes} {key : Bytes}

end

/-- The group of a key that is left, as it was in the beginning. -/
theorem Moves.groupOf_subset (h : Moves hash hash' conf db slot moved w m) (hr : m.Ready hash hash' conf payload db slot time)
    (hq : w.source.mod.Quiet hash conf) {key : Bytes} (hkey : key ∈ m.onSource db slot) :
    groupOf conf m.source.mod.slots db key ⊆ groupOf conf w.source.mod.slots db key := by
  intro k hk
  have hin := hr.groupOf_subset hkey hk
  rw [h.onSource] at hin
  exact ⟨hk.1, ((mem_onSource hq).mp hin.1).1⟩

end World

section
variable (n : Nat)

end

end RedisXSlot
