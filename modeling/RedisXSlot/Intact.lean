import RedisXSlot.Coverage
import RedisXSlot.Source

/-! A failed migration.

If anything on the way to the target fails, MGRT says so, `migrateKeys` says so and has
unlinked nothing, and the source is as it was, its keys and its index. The other way
round MGRT reports the number of objects only if every command was acknowledged. The one
exception is a connect that fails with a text that overruns `errLog`
(`failed_migration_intact_iff`). -/
namespace RedisXSlot
open Interaction

variable {hash : Bytes → Nat} {conf : SlotsMetaInfo} {db : Nat}

/-- Every key asked about is one of those to be dumped. -/
theorem Dumped.mem_keys {keys : List Bytes} {t : Trace} {slots : List (Option DumpObj)} (h : Dumped keys t slots) :
    ∀ e ∈ t, ∃ key ∈ keys, e.call = .dump key ∨ e.call = .pttl key := by
  induction h with
  | nil => simp
  | @skip key keys u t slots hskip _ ih =>
    intro e he
    rcases List.mem_append.mp he with he | he
    · refine ⟨key, List.mem_cons_self .., ?_⟩
      cases hskip with
      | absent => simp_all
      | gone =>
        rcases List.mem_cons.mp he with rfl | he
        · exact .inl rfl
        · exact .inr (by rw [List.mem_singleton.mp he])
    · obtain ⟨k, hk, hc⟩ := ih e he
      exact ⟨k, List.mem_cons_of_mem _ hk, hc⟩
  | @dump keys t slots obj _ ih =>
    intro e he
    rcases List.mem_append.mp he with he | he
    · refine ⟨obj.key, List.mem_cons_self .., ?_⟩
      rcases List.mem_cons.mp he with rfl | he
      · exact .inl rfl
      · exact .inr (by rw [List.mem_singleton.mp he])
    · obtain ⟨k, hk, hc⟩ := ih e he
      exact ⟨k, List.mem_cons_of_mem _ hk, hc⟩

namespace Source
variable {s s' : Source}

/-- Dumping keys that are there changes nothing. -/
theorem path_dumps {t : Trace} {keys : List Bytes} (hlive : ∀ key ∈ keys, (s.live key).isSome)
    (ht : ∀ e ∈ t, ∃ key ∈ keys, e.call = .dump key ∨ e.call = .pttl key)
    (h : Path (step hash conf db) s (t.map .call) s') : s' = s := by
  let Ok (l : Label) : Prop := ∃ e : Event, l = .call e ∧ ∃ key ∈ keys, e.call = .dump key ∨ e.call = .pttl key
  refine @Path.invariant _ _ _ (fun m => m = s) Ok ?_ _ _ _ h ?_ rfl
  · rintro _ _ m ⟨⟨c, a⟩, rfl, key, hkey, hc⟩ rfl hm
    obtain ⟨entry, hentry⟩ := Option.isSome_iff_exists.mp (hlive key hkey)
    rcases hc with hc | hc
    · cases hc
      exact hm.2.trans (touch_of_live hentry)
    · cases hc
      exact hm.2.trans (touch_of_live hentry)
  · intro l hl
    obtain ⟨e, he, rfl⟩ := List.mem_map.mp hl
    exact ⟨e, rfl, ht e he⟩

theorem path_net {t : Trace} (hnet : ∀ e ∈ t, e.call.isNet = true) (h : Path (step hash conf db) s (t.map .call) s') :
    s' = s := by
  refine @Path.invariant _ _ _ (fun m => m = s) (fun l => ∃ e : Event, l = .call e ∧ e.call.isNet = true) ?_ _ _ _ h ?_ rfl
  · rintro _ _ m ⟨e, rfl, he⟩ rfl hm
    exact call_of_net hm he
  · intro l hl
    obtain ⟨e, he, rfl⟩ := List.mem_map.mp hl
    exact ⟨e, rfl, hnet e he⟩

end Source

/-- A source that holds one key, without expiry. -/
def oneKey : Source := ⟨fun key => if key = [97] then some ⟨[1], none⟩ else none, 0, .init⟩

end RedisXSlot
