import RedisXSlot.Checksum
import RedisXSlot.Group

/-! The slot a client expects.

Clients take the checksum of the tag, or of the key, modulo the number of slots. The module
masks it with the number of slots less one, and `redisModule_SlotsInit` lets any number up
to 65536 pass. The two agree, and every slot is met by some key, if and only if the number
is a power of two (`routes_iff`). -/
namespace RedisXSlot
open Checksum

/-! ### Loading the module -/

def DEFAULT_HASH_SLOTS_MASK : Nat := 0x000003ff
def DEFAULT_HASH_SLOTS_SIZE : Nat := DEFAULT_HASH_SLOTS_MASK + 1
def MAX_NUM_THREADS : Nat := 128

/-- The numbers `redisModule_SlotsInit` reads from the arguments of the module: that of the slots
and that of the threads. -/
def redisModuleSlotsInit (argv : List Bytes) : Option (UInt32 × Nat) := do
  let hash_slots_size ← argv[0]?.elim (some (DEFAULT_HASH_SLOTS_SIZE : Int)) string2ll
  if hash_slots_size ≤ 0 then none
  else if hash_slots_size > MAX_HASH_SLOTS_SIZE then none
  else
    let num_threads ← argv[1]?.elim (some 0) string2ll
    if num_threads < 0 then none
    else if num_threads > MAX_NUM_THREADS then none
    else return (UInt32.ofNat hash_slots_size.toNat, num_threads.toNat)

theorem redisModuleSlotsInit_accepts {argv : List Bytes} {size : UInt32} {threads : Nat}
    (h : redisModuleSlotsInit argv = some (size, threads)) : 0 < size.toNat ∧ size.toNat ≤ MAX_HASH_SLOTS_SIZE := by
  obtain ⟨n, -, h⟩ := Option.bind_eq_some_iff.mp h
  split at h
  next => cases h
  next hpos =>
    split at h
    next => cases h
    next hmax =>
      obtain ⟨m, -, h⟩ := Option.bind_eq_some_iff.mp h
      split at h
      next => cases h
      next =>
        split at h
        next => cases h
        next =>
          cases h
          have hmax' : n.toNat ≤ MAX_HASH_SLOTS_SIZE := Int.toNat_le.mpr (Int.not_lt.mp hmax)
          have hlt : n.toNat < 2 ^ 32 := hmax'.trans_lt (by decide)
          rw [UInt32.toNat_ofNat', Nat.mod_eq_of_lt hlt]
          exact ⟨by omega, hmax'⟩

/-- `SlotsHashKey_RedisCommand`. -/
def slotsHashKeyRedisCommand (hash_slots_size : UInt32) (argv : List Bytes) : ClientReply :=
  if argv.length < 2 then .wrongArity
  else .array (argv.tail.map fun key => (slotsNum hash_slots_size key : Int))

/-! ### Every checksum is met -/

/-- For every bit of a checksum a set of places: a message with a bit set in the words at these
places only is the difference that changes this bit. -/
def bitPlaces : List Nat :=
  [0xdb710641, 0x62a6c6a8, 0xbd46bf94, 0x865e87cc, 0xa56abc72, 0x343dfa43, 0xa6cc97c2, 0x5234c0a8,
   0x6d930ac3, 0xc54d8d50, 0xa1fc7969, 0xd7cc09d9, 0x91a47ea5, 0x687bf486, 0x96e829c5, 0xa4698150,
   0xdb261586, 0x51ea1ce1, 0x9889f493, 0x74e915f3, 0xf839fb0b, 0xd0f7e90c, 0xf6a155cb, 0x93a204e1,
   0x6d3d2d4d, 0xa3d439c2, 0xea62ef67, 0xe9d22be6, 0x2b02f057, 0x7a9ed459, 0x3633add7, 0xfc350f83]

def bitMessage (i : Nat) : List (BitVec 8) :=
  (List.range 32).map fun j => if (bitPlaces.getD i 0).testBit j then 1 else 0

theorem foldl_bitMessage : ∀ i < 32, (bitMessage i).foldl (feedWord IEEE_POLY.toBitVec) 0#32 = BitVec.twoPow 32 i := by
  decide +kernel

/-- The key that differs from `bbb…` by these words. -/
def letters (us : List (BitVec 8)) : Bytes := us.map fun u => UInt8.ofBitVec (98#8 ^^^ u)

theorem foldl_letters (us : List (BitVec 8)) (crc : UInt32) :
    ((letters us).foldl crc32Step crc).toBitVec =
      (List.replicate us.length 98#8).foldl (feedWord IEEE_POLY.toBitVec) crc.toBitVec ^^^
        us.foldl (feedWord IEEE_POLY.toBitVec) 0#32 := by
  have hzip : (letters us).map UInt8.toBitVec = List.zipWith (· ^^^ ·) (List.replicate us.length 98#8) us := by
    induction us with
    | nil => rfl
    | cons u us ih =>
      rw [List.length_cons, List.replicate_succ, List.zipWith_cons_cons, ← ih]
      rfl
  rw [foldl_crc32Step_eq, hzip, ← foldl_feedWord_xor _ List.length_replicate, BitVec.xor_zero]

/-- **Every checksum is that of a key** without a tag. -/
theorem exists_crc32Checksum (v : UInt32) : ∃ key, NulFree key ∧ 123 ∉ key ∧ crc32Checksum key = v := by
  have hxor : ∀ u ∈ ({0, 1} : Set (BitVec 8)), ∀ v ∈ ({0, 1} : Set (BitVec 8)), u ^^^ v ∈ ({0, 1} : Set (BitVec 8)) := by
    rintro u (rfl | rfl) v (rfl | rfl) <;> simp
  have hbit : ∀ i < 32, ∃ us : List (BitVec 8), us.length = 32 ∧ (∀ u ∈ us, u ∈ ({0, 1} : Set (BitVec 8))) ∧
      us.foldl (feedWord IEEE_POLY.toBitVec) 0#32 = BitVec.twoPow 32 i := by
    intro i hi
    refine ⟨bitMessage i, by simp [bitMessage], fun u hu => ?_, foldl_bitMessage i hi⟩
    obtain ⟨j, -, rfl⟩ := List.mem_map.mp hu
    split
    · exact .inr rfl
    · exact .inl rfl
  obtain ⟨us, hlen, hus, hfed⟩ := exists_foldl_feedWord IEEE_POLY.toBitVec (Or.inl rfl) hxor hbit
    ((~~~ v).toBitVec ^^^ (List.replicate 32 98#8).foldl (feedWord IEEE_POLY.toBitVec) (~~~ (0 : UInt32)).toBitVec)
  have hletter : ∀ b ∈ letters us, b = 98 ∨ b = 99 := by
    intro b hb
    obtain ⟨u, hu, rfl⟩ := List.mem_map.mp hb
    rcases hus u hu with rfl | rfl
    · exact .inl rfl
    · exact .inr rfl
  refine ⟨letters us, fun h => ?_, fun h => ?_, ?_⟩
  · exact absurd (hletter 0 h) (by decide)
  · exact absurd (hletter 123 h) (by decide)
  · have hregister : (letters us).foldl crc32Step (~~~ 0) = ~~~ v := by
      apply UInt32.toBitVec_inj.mp
      rw [foldl_letters, hlen, hfed, BitVec.xor_comm (~~~ v).toBitVec, ← BitVec.xor_assoc, BitVec.xor_self,
        BitVec.zero_xor]
    rw [crc32Checksum, hregister, UInt32.not_not]

/-! ### The slot -/

/-- The slot where a client looks for the key. -/
def ClientSlot (hash_slots_size : UInt32) (key : Bytes) (slot : Nat) : Prop :=
  (∃ tag, HasTagAt key tag ∧ slot = (ieeeCrc32 tag).toNat % hash_slots_size.toNat) ∨
    ((∀ tag, ¬ HasTagAt key tag) ∧ slot = (ieeeCrc32 key).toNat % hash_slots_size.toNat)

/-- The module routes keys as its clients do, and to every slot. -/
structure RoutesAsClients (hash_slots_size : UInt32) : Prop where
  slot : ∀ key, NulFree key → ClientSlot hash_slots_size key (slotsNum hash_slots_size key)
  replied : ∀ name keys, keys ≠ [] → (∀ key ∈ keys, NulFree key) → ∃ slots : List Nat,
    slotsHashKeyRedisCommand hash_slots_size (name :: keys) = .array (slots.map fun (slot : Nat) => (slot : Int)) ∧
      List.Forall₂ (ClientSlot hash_slots_size) keys slots
  reached : ∀ slot < hash_slots_size.toNat, ∃ key, NulFree key ∧ slotsNum hash_slots_size key = slot

section
variable {size : UInt32}

theorem slotsNum_eq_and (hpos : 0 < size.toNat) (key : Bytes) :
    slotsNum size key = (slotsCrc key).toNat &&& (size.toNat - 1) := by
  have hone : (1 : UInt32) ≤ size := UInt32.le_iff_toNat_le.mpr (Nat.succ_le_of_lt hpos)
  rw [slotsNum, UInt32.toNat_and, UInt32.toNat_sub_of_le _ _ hone]
  rfl

/-- The mask of a power of two is the remainder. -/
theorem slotsNum_eq_mod {k : Nat} (hk : size.toNat = 2 ^ k) (key : Bytes) :
    slotsNum size key = (slotsCrc key).toNat % size.toNat := by
  rw [slotsNum_eq_and (hk ▸ Nat.two_pow_pos k), hk, Nat.and_two_pow_sub_one_eq_mod]

theorem clientSlot_slotsCrc {key : Bytes} (hnul : NulFree key) :
    ClientSlot size key ((slotsCrc key).toNat % size.toNat) := by
  rw [slotsCrc, cString_of_nulFree hnul]
  cases htag : slotsTag key with
  | some tag => exact .inl ⟨tag, slotsTag_eq_some_iff.mp htag, by rw [crc32Checksum_eq_ieeeCrc32]; rfl⟩
  | none =>
    refine .inr ⟨fun tag h => ?_, by rw [crc32Checksum_eq_ieeeCrc32]; rfl⟩
    rw [slotsTag_eq_some_iff.mpr h] at htag
    cases htag

/-- **A power of two** routes as the clients do. -/
theorem routesAsClients_of_two_pow {k : Nat} (hk : size.toNat = 2 ^ k) : RoutesAsClients size := by
  have hslot : ∀ key, NulFree key → ClientSlot size key (slotsNum size key) := by
    intro key hnul
    rw [slotsNum_eq_mod hk]
    exact clientSlot_slotsCrc hnul
  refine ⟨hslot, fun name keys hne hnul => ⟨keys.map (slotsNum size), ?_, ?_⟩, fun slot hlt => ?_⟩
  · have hlen : ¬ (name :: keys).length < 2 := by
      have hpos := List.length_pos_of_ne_nil hne
      rw [List.length_cons]
      omega
    rw [slotsHashKeyRedisCommand, if_neg hlen, List.map_map]
    rfl
  · exact List.forall₂_map_right_iff.mpr (List.forall₂_same.mpr fun key hkey => hslot key (hnul key hkey))
  · obtain ⟨key, hnul, hopen, hcrc⟩ := exists_crc32Checksum (UInt32.ofNat slot)
    refine ⟨key, hnul, ?_⟩
    have hlt' : slot < 2 ^ 32 := hlt.trans (UInt32.toNat_lt size)
    rw [slotsNum_eq_mod hk, slotsCrc, cString_of_nulFree hnul, slotsTag_eq_none_of_not_mem hopen, Option.getD_none, hcrc,
      UInt32.toNat_ofNat', Nat.mod_eq_of_lt hlt', Nat.mod_eq_of_lt hlt]

/-- A number that keeps all bits of the smaller ones is a power of two less one. -/
theorem two_pow_of_and_eq {m : Nat} (h : ∀ s ≤ m, s &&& m = s) : m + 1 = 2 ^ m.size := by
  have hm : m = 2 ^ m.size - 1 := by
    apply Nat.eq_of_testBit_eq
    intro j
    rw [Nat.testBit_two_pow_sub_one]
    by_cases hj : j < m.size
    · have hbit := congrArg (Nat.testBit · j) (h (2 ^ j) (Nat.lt_size.mp hj))
      simpa [Nat.testBit_and, Nat.testBit_two_pow_self, hj] using hbit
    · rw [Nat.testBit_lt_two_pow (m.lt_size_self.trans_le (Nat.pow_le_pow_right (by decide) (Nat.not_lt.mp hj)))]
      simp [hj]
  have hpos := Nat.two_pow_pos m.size
  omega

/-- **Only a power of two** reaches every slot. -/
theorem two_pow_of_reached (hpos : 0 < size.toNat)
    (h : ∀ slot < size.toNat, ∃ key, NulFree key ∧ slotsNum size key = slot) : ∃ k, size.toNat = 2 ^ k := by
  refine ⟨(size.toNat - 1).size, ?_⟩
  rw [← two_pow_of_and_eq fun s hs => ?_]
  · omega
  · obtain ⟨key, -, hkey⟩ := h s (by omega)
    rw [← hkey, slotsNum_eq_and hpos, Nat.and_assoc, Nat.and_self]

end

/-- **When the module routes keys as its clients do**: if the number of slots it was loaded with is a
power of two. -/
theorem routes_iff {argv : List Bytes} {size : UInt32} {threads : Nat}
    (h : redisModuleSlotsInit argv = some (size, threads)) : RoutesAsClients size ↔ ∃ k, size.toNat = 2 ^ k := by
  constructor
  · intro hroutes
    exact two_pow_of_reached (redisModuleSlotsInit_accepts h).1 hroutes.reached
  · intro ⟨k, hk⟩
    exact routesAsClients_of_two_pow hk

/-- The number of slots without arguments. -/
theorem routes_iff_default : RoutesAsClients 1024 ↔ ∃ k, (1024 : UInt32).toNat = 2 ^ k :=
  @routes_iff [] 1024 0 (by decide)

/-- With three slots the key `a` is put into slot 2 and looked for in slot 0. -/
theorem not_routes : redisModuleSlotsInit [[51]] = some (3, 0) ∧ slotsNum 3 [97] = 2 ∧ ClientSlot 3 [97] 0 ∧
    ¬ RoutesAsClients 3 := by
  have hnone : ∀ tag, ¬ HasTagAt [97] tag := by
    intro tag h
    have htag := slotsTag_eq_some_iff.mpr h
    rw [slotsTag_eq_none_of_not_mem (by decide)] at htag
    cases htag
  have hslot : slotsNum 3 [97] = 2 := by decide +kernel
  have hclient : (ieeeCrc32 [97]).toNat % (3 : UInt32).toNat = 0 := by decide +kernel
  refine ⟨by decide, hslot, .inr ⟨hnone, hclient.symm⟩, fun h => ?_⟩
  rcases h.slot [97] (by decide) with ⟨tag, htag, -⟩ | ⟨-, heq⟩
  · exact hnone tag htag
  · rw [hslot, hclient] at heq
    cases heq

end RedisXSlot
