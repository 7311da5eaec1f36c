import Interim.Library.Chains
import Interim.Minilisp

/-!
# The string map

Model of `sledge/strmap.c`. A map is an array of buckets, a bucket an array of
pairs. A key is the bytes in front of its NUL, a value an address, 0 being
`NULL`. Each call of `sm_put` says whether there is memory for it.

`smPut_represents`: after any calls of `sm_put` on a new map, the map is the
finite map of the last values, for `sm_get`, `sm_exists`, `sm_get_count` and
`sm_enum` alike, and the calls that return 0 are those that bound nothing.
-/

namespace Interim.Sledge

/-! ## Model -/

/-- The bytes in front of the NUL of a string. -/
abbrev Key : Type := List UInt8

/-- `Pair`: `key` and `value`. -/
abbrev Pair : Type := Key × ℕ

/-- `StrMap`; the pairs of a bucket are `pairs[0 .. count)`. -/
structure StrMap where
  count : ℕ
  buckets : List (List Pair)
  length_buckets : buckets.length = count

/-- `sm_new(capacity)`. -/
def smNew (capacity : ℕ) : StrMap :=
  ⟨capacity, List.replicate capacity [], List.length_replicate⟩

/-- `hash(str)`, for a `char` with a sign and an `unsigned long` of 64 bits. -/
def hash (str : Key) : BitVec 64 :=
  str.foldl (fun hash c => ((hash <<< 5) + hash) + c.toBitVec.signExtend 64) 5381

/-- `hash(key) % map->count`. -/
def bucketIndex (map : StrMap) (key : Key) : Except Stop ℕ :=
  if map.count = 0 then .error .fault else .ok ((hash key).toNat % map.count)

/-- `map->buckets[index]`. -/
def bucketAt (map : StrMap) (index : ℕ) : Except Stop (List Pair) :=
  match map.buckets[index]? with
  | some bucket => .ok bucket
  | none => .error .fault

/-- `get_pair(bucket, key)`. -/
def getPair (bucket : List Pair) (key : Key) : Option Pair :=
  bucket.find? fun pair => pair.2 ≠ 0 ∧ pair.1 = key

/-- `sm_get(map, key, &out)`: `*out` when it returns 1. -/
def smGet (map : StrMap) : Option Key → Except Stop (Option ℕ)
  | none => .ok none
  | some key => do
    let index ← bucketIndex map key
    let bucket ← bucketAt map index
    .ok ((getPair bucket key).map Prod.snd)

/-- `sm_exists(map, key)`. -/
def smExists (map : StrMap) : Option Key → Except Stop Bool
  | none => .ok false
  | some key => do
    let index ← bucketIndex map key
    let bucket ← bucketAt map index
    .ok (getPair bucket key).isSome

/-- `pair->value = value` for the pair `get_pair` returns. -/
def setValue (key : Key) (value : ℕ) : List Pair → List Pair
  | [] => []
  | pair :: bucket =>
    if pair.2 ≠ 0 ∧ pair.1 = key then (pair.1, value) :: bucket
    else pair :: setValue key value bucket

/-- Replace a bucket. -/
def setBucket (map : StrMap) (index : ℕ) (bucket : List Pair) : StrMap :=
  ⟨map.count, map.buckets.set index bucket, List.length_set.trans map.length_buckets⟩

/-- A call of `sm_put`; `room`: `malloc` and `realloc` succeed. -/
structure Call where
  key : Option Key
  value : ℕ
  room : Bool

/-- `sm_put(map, key, value)`: the map and what is returned. -/
def smPut (map : StrMap) (call : Call) : Except Stop (StrMap × ℕ) :=
  match call.key with
  | none => .ok (map, 0)
  | some key =>
    if call.value = 0 then .ok (map, 0)
    else do
      let index ← bucketIndex map key
      let bucket ← bucketAt map index
      if (getPair bucket key).isSome then
        .ok (setBucket map index (setValue key call.value bucket), 1)
      else if call.room then .ok (setBucket map index (bucket ++ [(key, call.value)]), 1)
      else .ok (map, 0)

/-- `sm_get_count(map)`. -/
def smGetCount (map : StrMap) : ℕ :=
  map.buckets.foldl (fun count bucket => bucket.foldl (fun count _ => count + 1) count) 0

/-- `sm_enum(map, enum_func, obj)`; `enum_func` changes a state. -/
def smEnum {σ : Type} (map : StrMap) (enumFunc : σ → Key → ℕ → σ) (s : σ) : σ :=
  map.buckets.foldl (fun s bucket => bucket.foldl (fun s pair => enumFunc s pair.1 pair.2) s) s

/-- A sequence of calls of `sm_put`: the map and what each call returns. -/
def smPuts : List Call → StrMap → Except Stop (StrMap × List ℕ)
  | [], map => .ok (map, [])
  | call :: calls, map => do
    let (map, ret) ← smPut map call
    let (map, rets) ← smPuts calls map
    .ok (map, ret :: rets)

/-! ## The finite map -/

/-- The bindings of a map. -/
abbrev Bindings : Type := Key → Option ℕ

/-- What a call of `sm_put` binds: nothing if the key or the value is `NULL`, and
    no new key if there is no memory. -/
def Call.binds (m : Bindings) (call : Call) : Option (Key × ℕ) :=
  match call.key with
  | none => none
  | some key =>
    if call.value ≠ 0 ∧ (call.room = true ∨ (m key).isSome = true) then some (key, call.value)
    else none

/-- The bindings after a call. -/
def bindings (m : Bindings) (call : Call) : Bindings :=
  match call.binds m with
  | none => m
  | some (key, value) => Function.update m key (some value)

/-- What the calls return: 1 for a call that binds. -/
def returned : Bindings → List Call → List ℕ
  | _, [] => []
  | m, call :: calls => (if (call.binds m).isSome then 1 else 0) :: returned (bindings m call) calls

/-- All four readers see the finite map `m`. `sm_enum` meets each binding once,
    whatever the callback does. -/
structure Represents (map : StrMap) (m : Bindings) : Prop where
  get : ∀ key, smGet map (some key) = .ok (m key)
  exists_ : ∀ key, smExists map (some key) = .ok (m key).isSome
  count : ∃ keys : Finset Key, (∀ key, key ∈ keys ↔ (m key).isSome = true) ∧
    smGetCount map = keys.card
  enum : ∃ pairs : List Pair, (pairs.map Prod.fst).Nodup ∧
    (∀ key value, (key, value) ∈ pairs ↔ m key = some value) ∧
    ∀ (σ : Type) (enumFunc : σ → Key → ℕ → σ) (s : σ),
      smEnum map enumFunc s = pairs.foldl (fun s pair => enumFunc s pair.1 pair.2) s

/-! ## The map is a table with chains -/

/-- The hash as a number. -/
abbrev hashNat (key : Key) : ℕ := (hash key).toNat

/-- The buckets are chains, and no value is `NULL`. -/
structure StrMap.Ok (map : StrMap) : Prop where
  wellFormed : Chains.WellFormed hashNat map.buckets
  live : ∀ bucket ∈ map.buckets, ∀ pair ∈ bucket, pair.2 ≠ 0

section Refinement

variable {map : StrMap} {key : Key} {value : ℕ} {bucket : List Pair}

theorem smNew_ok {capacity : ℕ} (h : 0 < capacity) : (smNew capacity).Ok := by
  refine ⟨Chains.wellFormed_replicate h, fun bucket hb pair hp => ?_⟩
  rw [List.eq_of_mem_replicate hb] at hp
  exact absurd hp List.not_mem_nil

/-- The bucket of a key. -/
theorem StrMap.Ok.bucketAt_index (h : map.Ok) (key : Key) :
    bucketIndex map key = .ok (Chains.index hashNat map.buckets key) ∧
    ∃ bucket, map.buckets[Chains.index hashNat map.buckets key]? = some bucket ∧
      bucketAt map (Chains.index hashNat map.buckets key) = .ok bucket := by
  have hpos := h.wellFormed.nonempty
  have hlt := Chains.index_lt h.wellFormed key
  refine ⟨?_, _, List.getElem?_eq_getElem hlt, ?_⟩
  · rw [bucketIndex, ← map.length_buckets, if_neg hpos.ne']
    rfl
  · rw [bucketAt, List.getElem?_eq_getElem hlt]

/-- Without `NULL` values the search is for the key alone. -/
theorem getPair_eq (h : ∀ pair ∈ bucket, pair.2 ≠ 0) (key : Key) :
    (getPair bucket key).map Prod.snd = Chains.find key bucket := by
  rw [getPair, Chains.find]
  congr 1
  refine List.find?_congr fun pair hp => ?_
  simp [h pair hp]

theorem getPair_isSome (h : ∀ pair ∈ bucket, pair.2 ≠ 0) (key : Key) :
    (getPair bucket key).isSome = (Chains.find key bucket).isSome := by
  rw [← getPair_eq h, Option.isSome_map]

/-- Both branches of `sm_put` store the pair. -/
theorem store_eq (h : ∀ pair ∈ bucket, pair.2 ≠ 0) (key : Key) (value : ℕ) :
    Chains.store key value bucket =
      if (getPair bucket key).isSome then setValue key value bucket else bucket ++ [(key, value)] := by
  induction bucket with
  | nil => rfl
  | cons pair bucket ih =>
    have hpair := h pair (List.mem_cons_self ..)
    have hrest := ih fun p hp => h p (List.mem_cons_of_mem _ hp)
    rw [Chains.store]
    by_cases hk : pair.1 = key
    · have hsome : (getPair (pair :: bucket) key).isSome = true := by simp [getPair, hpair, hk]
      rw [if_pos hk, hsome, if_pos rfl, setValue, if_pos ⟨hpair, hk⟩, hk]
    · have htail : getPair (pair :: bucket) key = getPair bucket key :=
        List.find?_cons_of_neg (by simp [hk])
      have hset : setValue key value (pair :: bucket) = pair :: setValue key value bucket :=
        if_neg fun hp => hk hp.2
      rw [if_neg hk, htail, hset, hrest]
      split
      · rfl
      · rfl

theorem StrMap.Ok.get (h : map.Ok) (key : Key) :
    smGet map (some key) = .ok (Chains.get hashNat map.buckets key) := by
  obtain ⟨hindex, bucket, hbucket, hat⟩ := h.bucketAt_index key
  have hlive := h.live bucket (List.mem_of_getElem? hbucket)
  rw [smGet, hindex]
  change (do let b ← bucketAt map _; Except.ok ((getPair b key).map Prod.snd)) = _
  rw [hat, Chains.get, hbucket]
  exact congrArg Except.ok (getPair_eq hlive key)

theorem StrMap.Ok.exists_ (h : map.Ok) (key : Key) :
    smExists map (some key) = .ok (Chains.get hashNat map.buckets key).isSome := by
  obtain ⟨hindex, bucket, hbucket, hat⟩ := h.bucketAt_index key
  have hlive := h.live bucket (List.mem_of_getElem? hbucket)
  rw [smExists, hindex]
  change (do let b ← bucketAt map _; Except.ok (getPair b key).isSome) = _
  rw [hat, Chains.get, hbucket]
  exact congrArg Except.ok (getPair_isSome hlive key)

theorem mem_setValue {pair : Pair} (hv : value ≠ 0) (h : ∀ pair ∈ bucket, pair.2 ≠ 0)
    (hp : pair ∈ Chains.store key value bucket) : pair.2 ≠ 0 := by
  induction bucket with
  | nil =>
    rw [Chains.store, List.mem_singleton] at hp
    rw [hp]
    exact hv
  | cons q bucket ih =>
    rw [Chains.store] at hp
    split at hp
    · rcases List.mem_cons.mp hp with rfl | hp
      · exact hv
      · exact h pair (List.mem_cons_of_mem _ hp)
    · rcases List.mem_cons.mp hp with rfl | hp
      · exact h pair (List.mem_cons_self ..)
      · exact ih (fun p hp => h p (List.mem_cons_of_mem _ hp)) hp

/-- `sm_put` inserts what the call binds into the table, and returns 1 if it
    binds something. -/
theorem StrMap.Ok.put (h : map.Ok) {m : Bindings}
    (hm : ∀ key, Chains.get hashNat map.buckets key = m key) (key : Key) (value : ℕ) (room : Bool)
    (hv : value ≠ 0) :
    ∃ map', smPut map ⟨some key, value, room⟩ =
        .ok (map', if room = true ∨ (m key).isSome = true then 1 else 0) ∧ map'.Ok ∧
      map'.buckets = if room = true ∨ (m key).isSome = true then
        Chains.put hashNat map.buckets key value else map.buckets := by
  obtain ⟨hindex, bucket, hbucket, hat⟩ := h.bucketAt_index key
  have hlive := h.live bucket (List.mem_of_getElem? hbucket)
  obtain ⟨hlt, hget⟩ := List.getElem?_eq_some_iff.mp hbucket
  have hfound : (getPair bucket key).isSome = (m key).isSome := by
    rw [getPair_isSome hlive, ← hm, Chains.get, hbucket, Option.bind_some]
  have hset : (setBucket map (Chains.index hashNat map.buckets key)
      (Chains.store key value bucket)).buckets = Chains.put hashNat map.buckets key value := by
    apply List.ext_getElem?
    intro i
    change (map.buckets.set _ _)[i]? = _
    rw [Chains.getElem?_put, List.getElem?_set]
    by_cases hi : Chains.index hashNat map.buckets key = i
    · rw [if_pos hi, if_pos hi, if_pos hlt, ← hi, hbucket, Option.map_some]
    · rw [if_neg hi, if_neg hi]
  have hok : (setBucket map (Chains.index hashNat map.buckets key)
      (Chains.store key value bucket)).Ok := by
    refine ⟨hset ▸ h.wellFormed.put key value, fun b hb pair hp => ?_⟩
    rw [hset] at hb
    obtain ⟨i, hi⟩ := List.mem_iff_getElem?.mp hb
    rw [Chains.getElem?_put] at hi
    split at hi
    · obtain ⟨old, hold, rfl⟩ := Option.map_eq_some_iff.mp hi
      exact mem_setValue hv (h.live old (List.mem_of_getElem? hold)) hp
    · exact h.live b (List.mem_of_getElem? hi) pair hp
  have hstore := store_eq hlive key value
  rw [hfound] at hstore
  by_cases hb : room = true ∨ (m key).isSome = true
  · refine ⟨_, ?_, hok, hset.trans (if_pos hb).symm⟩
    simp only [smPut, if_neg hv, hindex, bind, Except.bind, hat, hfound, if_pos hb]
    rw [hstore]
    by_cases hold : (m key).isSome = true
    · rw [if_pos hold, if_pos hold]
    · rw [if_neg hold, if_neg hold, if_pos (hb.resolve_right hold)]
  · refine ⟨map, ?_, h, (if_neg hb).symm⟩
    simp only [smPut, if_neg hv, hindex, bind, Except.bind, hat, hfound, if_neg hb]
    rw [if_neg fun hold => hb (Or.inr hold), if_neg fun hroom => hb (Or.inl hroom)]

/-! ## Going through the buckets -/

theorem smEnum_eq {σ : Type} (map : StrMap) (enumFunc : σ → Key → ℕ → σ) (s : σ) :
    smEnum map enumFunc s =
      (Chains.entries map.buckets).foldl (fun s pair => enumFunc s pair.1 pair.2) s :=
  List.foldl_flatten.symm

theorem smGetCount_eq (map : StrMap) : smGetCount map = (Chains.entries map.buckets).length := by
  have hcount : ∀ (bucket : List Pair) (count : ℕ),
      bucket.foldl (fun count _ => count + 1) count = count + bucket.length := by
    intro bucket
    induction bucket with
    | nil => exact fun _ => rfl
    | cons pair bucket ih =>
      intro count
      rw [List.foldl_cons, ih, List.length_cons]
      omega
  rw [smGetCount, ← List.foldl_flatten, hcount, Nat.zero_add]
  rfl

/-! ## Sequences -/

/-- A good map represents what its table holds. -/
theorem StrMap.Ok.represents (h : map.Ok) {m : Bindings}
    (hm : ∀ key, Chains.get hashNat map.buckets key = m key) : Represents map m := by
  have hmem : ∀ key value, (key, value) ∈ Chains.entries map.buckets ↔ m key = some value := by
    intro key value
    rw [Chains.mem_entries h.wellFormed, hm]
  refine ⟨fun key => ?_, fun key => ?_, ?_, ?_⟩
  · rw [h.get, hm]
  · rw [h.exists_, hm]
  · refine ⟨((Chains.entries map.buckets).map Prod.fst).toFinset, fun key => ?_, ?_⟩
    · rw [List.mem_toFinset, List.mem_map, Option.isSome_iff_exists]
      constructor
      · rintro ⟨⟨k, value⟩, hp, rfl⟩
        exact ⟨value, (hmem _ _).mp hp⟩
      · rintro ⟨value, hv⟩
        exact ⟨(key, value), (hmem _ _).mpr hv, rfl⟩
    · rw [smGetCount_eq, List.toFinset_card_of_nodup (Chains.keys_nodup h.wellFormed),
        List.length_map]
  · exact ⟨_, Chains.keys_nodup h.wellFormed, hmem, fun _ enumFunc s => smEnum_eq map enumFunc s⟩

/-- One call of `sm_put`. -/
theorem smPut_step (h : map.Ok) {m : Bindings}
    (hm : ∀ key, Chains.get hashNat map.buckets key = m key) (call : Call) :
    ∃ map', smPut map call = .ok (map', if (call.binds m).isSome then 1 else 0) ∧ map'.Ok ∧
      ∀ key, Chains.get hashNat map'.buckets key = bindings m call key := by
  obtain ⟨key, value, room⟩ := call
  cases key with
  | none => exact ⟨map, rfl, h, hm⟩
  | some key =>
    by_cases hv : value = 0
    · have hnone : Call.binds m ⟨some key, value, room⟩ = none := if_neg fun hb => hb.1 hv
      refine ⟨map, ?_, h, fun k => ?_⟩
      · rw [hnone]
        exact if_pos hv
      · rw [bindings, hnone]
        exact hm k
    · obtain ⟨map', hput, hok, hbuckets⟩ := h.put hm key value room hv
      by_cases hb : room = true ∨ (m key).isSome = true
      · have hsome : Call.binds m ⟨some key, value, room⟩ = some (key, value) := if_pos ⟨hv, hb⟩
        refine ⟨map', ?_, hok, fun k => ?_⟩
        · rw [hput, hsome, if_pos hb]
          rfl
        · rw [hbuckets, if_pos hb, Chains.get_put h.wellFormed, hm, bindings, hsome]
          exact (Function.update_apply ..).symm
      · have hnone : Call.binds m ⟨some key, value, room⟩ = none := if_neg fun hc => hb hc.2
        refine ⟨map', ?_, hok, fun k => ?_⟩
        · rw [hput, hnone, if_neg hb]
          rfl
        · rw [hbuckets, if_neg hb, hm, bindings, hnone]

theorem smPuts_represents (h : map.Ok) {m : Bindings}
    (hm : ∀ key, Chains.get hashNat map.buckets key = m key) (calls : List Call) :
    ∃ map', smPuts calls map = .ok (map', returned m calls) ∧
      Represents map' (calls.foldl bindings m) := by
  induction calls generalizing map m with
  | nil => exact ⟨map, rfl, h.represents hm⟩
  | cons call calls ih =>
    obtain ⟨map₁, hput, hok, hm₁⟩ := smPut_step h hm call
    obtain ⟨map', hputs, hrep⟩ := ih hok hm₁
    refine ⟨map', ?_, hrep⟩
    rw [smPuts, hput]
    change (do let (map, rets) ← smPuts calls map₁; Except.ok (map, _ :: rets)) = _
    rw [hputs]
    rfl

end Refinement

end Interim.Sledge
