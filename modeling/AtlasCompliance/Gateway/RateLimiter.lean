import AtlasCompliance.Lib.Expiring
import AtlasCompliance.Lib.TokenBucket

/-! The Redis token-bucket rate limiter of the gateway. On stamps that never go back its script is
the ideal bucket, with or without the expiry of its key; stamps out of order refill twice. -/
namespace AtlasCompliance.Gateway
open Expiring TokenBucket

/-- `ResilienceProperties`: the configured requests per minute, 60 when not positive. -/
def requestsPerMin (configured : ℤ) : ℤ := if 0 < configured then configured else 60

/-- The fields `tokens` and `ts` of a bucket's hash. -/
structure BucketHash where
  tokens : ℚ
  ts : ℚ

/-- The tokens `RedisRateLimiter.LUA` counts after its refill; a missing hash is full and new. -/
def luaTokens (capacity refillPerMs now : ℚ) (data : Option BucketHash) : ℚ :=
  let tokens := (data.map BucketHash.tokens).getD capacity
  let ts := (data.map BucketHash.ts).getD now
  let elapsed := if now - ts < 0 then 0 else now - ts
  min capacity (tokens + elapsed*refillPerMs)

/-- `RedisRateLimiter.LUA` from the hash it reads to the hash it writes and its answer. -/
def luaScript (capacity refillPerMs now : ℚ) (data : Option BucketHash) : BucketHash × Bool :=
  let tokens := luaTokens capacity refillPerMs now data
  if 1 ≤ tokens then (⟨tokens - 1,now⟩,true) else (⟨tokens,now⟩,false)

@[simp] theorem luaScript_ts (capacity refillPerMs now : ℚ) (data : Option BucketHash) :
    (luaScript capacity refillPerMs now data).1.ts = now := by
  unfold luaScript
  dsimp only
  split_ifs <;> rfl

def TTL_SECONDS : ℚ := 120

def RATELIMIT_KEY_PREFIX : String := "atlas:ratelimit:"

/-- A call of `tryAcquire`: its key, the stamp the gateway put on it and the time Redis runs it. -/
structure Acquire where
  key : String
  now : ℚ
  clock : ℚ
  deriving DecidableEq

/-- The rate-limit keys of the Redis database. -/
abbrev BucketCell : Type := Option (Entry ℚ BucketHash)
abbrev BucketDb : Type := String → BucketCell

structure RedisRateLimiter where
  capacity : ℤ
  capacity_pos : 0 < capacity

namespace RedisRateLimiter

/-- The limiter that the configuration builds. -/
def ofConfigured (configured : ℤ) : RedisRateLimiter :=
  ⟨requestsPerMin configured,by unfold requestsPerMin; split_ifs <;> omega⟩

variable (L : RedisRateLimiter)

def refillPerMs : ℚ := L.capacity/60000

/-- The script on its one key, which then expires `ttl` later if at all. -/
def eval (ttl : Option ℚ) (cell : BucketCell) (x : Acquire) : BucketCell × Bool :=
  let r := luaScript L.capacity L.refillPerMs x.now (read x.clock cell)
  (some (write x.clock ttl r.1),r.2)

def tryAcquire (ttl : Option ℚ) (db : BucketDb) (x : Acquire) : BucketDb × Bool :=
  let r := L.eval ttl (db (RATELIMIT_KEY_PREFIX ++ x.key)) x
  (Function.update db (RATELIMIT_KEY_PREFIX ++ x.key) r.1,r.2)

/-- The expiry of the script's `EXPIRE`, in milliseconds. -/
def keyTtl : Option ℚ := some (TTL_SECONDS*1000)

/-- The database after a sequence of calls. -/
def after (ttl : Option ℚ) : BucketDb → List Acquire → BucketDb
  | db,[] => db
  | db,x::rest => after ttl (L.tryAcquire ttl db x).1 rest

/-- The calls of a sequence with their decisions. -/
def decisions (ttl : Option ℚ) : BucketDb → List Acquire → List (Acquire × Bool)
  | _,[] => []
  | db,x::rest => (x,(L.tryAcquire ttl db x).2)::decisions ttl (L.tryAcquire ttl db x).1 rest

end RedisRateLimiter

/-- The database before the first call. -/
def noBuckets : BucketDb := fun _ => none

/-- The calls on `key` stamped from `s` to `t` that were allowed. -/
def allowed (key : String) (s t : ℚ) (ds : List (Acquire × Bool)) : ℕ :=
  ds.countP fun d => d.2 && d.1.key == key && s ≤ d.1.now && d.1.now ≤ t

namespace RedisRateLimiter
variable {L : RedisRateLimiter}

/-! ### One key -/

theorem tryAcquire_self (ttl : Option ℚ) (db : BucketDb) (x : Acquire) :
    (L.tryAcquire ttl db x).1 (RATELIMIT_KEY_PREFIX ++ x.key) =
      (L.eval ttl (db (RATELIMIT_KEY_PREFIX ++ x.key)) x).1 := by
  simp [tryAcquire]

theorem tryAcquire_of_ne {ttl : Option ℚ} {db : BucketDb} {x : Acquire} {key : String}
    (h : key ≠ RATELIMIT_KEY_PREFIX ++ x.key) : (L.tryAcquire ttl db x).1 key = db key := by
  simp [tryAcquire,Function.update_of_ne h]

/-- The decisions on the calls of one key. -/
def cellDecisions (L : RedisRateLimiter) (ttl : Option ℚ) : BucketCell → List Acquire → List (ℚ × Bool)
  | _,[] => []
  | cell,x::rest => (x.now,(L.eval ttl cell x).2)::cellDecisions L ttl (L.eval ttl cell x).1 rest

/-- Calls on other keys leave a key alone. -/
theorem decisions_key (ttl : Option ℚ) (db : BucketDb) (key : String) (xs : List Acquire) :
    ((L.decisions ttl db xs).filter fun d => d.1.key == key).map (fun d => (d.1.now,d.2)) =
      L.cellDecisions ttl (db (RATELIMIT_KEY_PREFIX ++ key)) (xs.filter fun x => x.key == key) := by
  induction xs generalizing db with
  | nil => rfl
  | cons x rest ih =>
    by_cases hkey : x.key = key
    · subst hkey
      simp [decisions,cellDecisions,ih,tryAcquire]
    · have hne : RATELIMIT_KEY_PREFIX ++ key ≠ RATELIMIT_KEY_PREFIX ++ x.key := fun h =>
        hkey (by simpa using h.symm)
      simp [decisions,ih,hkey,tryAcquire_of_ne hne]

theorem allowed_eq (ttl : Option ℚ) (db : BucketDb) (key : String) (s t : ℚ) (xs : List Acquire) :
    allowed key s t (L.decisions ttl db xs) = granted s t
      (L.cellDecisions ttl (db (RATELIMIT_KEY_PREFIX ++ key)) (xs.filter fun x => x.key == key)) := by
  rw [← decisions_key,granted,List.countP_map,List.countP_filter,allowed]
  congr 1
  funext d
  simp only [Function.comp]
  cases d.2 <;> cases d.1.key == key <;> simp

/-! ### What the script keeps of its key -/

/-- The tokens of a bucket stay between nothing and the capacity. -/
structure Kept (L : RedisRateLimiter) (h : BucketHash) : Prop where
  nonneg : 0 ≤ h.tokens
  le_capacity : h.tokens ≤ L.capacity

theorem capacity_cast_pos : (0 : ℚ) < L.capacity := by exact_mod_cast L.capacity_pos

theorem refillPerMs_nonneg : 0 ≤ L.refillPerMs := div_nonneg capacity_cast_pos.le (by norm_num)

/-- Whatever the stamps: the elapsed time is clamped at zero. -/
theorem luaTokens_nonneg {data : Option BucketHash} (h : ∀ d ∈ data, L.Kept d) (now : ℚ) :
    0 ≤ luaTokens L.capacity L.refillPerMs now data := by
  have htokens : 0 ≤ (data.map BucketHash.tokens).getD L.capacity := by
    cases data with
    | none => exact capacity_cast_pos.le
    | some d => exact (h d rfl).nonneg
  have helapsed : ∀ e : ℚ, 0 ≤ if e < 0 then 0 else e := by
    intro e
    split_ifs with hneg
    · exact le_rfl
    · exact not_lt.mp hneg
  exact le_min capacity_cast_pos.le
    (add_nonneg htokens (mul_nonneg (helapsed _) refillPerMs_nonneg))

theorem luaTokens_le (now : ℚ) (data : Option BucketHash) :
    luaTokens L.capacity L.refillPerMs now data ≤ L.capacity := min_le_left _ _

theorem Kept.luaScript {data : Option BucketHash} (h : ∀ d ∈ data, L.Kept d) (now : ℚ) :
    L.Kept (luaScript L.capacity L.refillPerMs now data).1 := by
  have hle := luaTokens_le (L := L) now data
  unfold Gateway.luaScript
  dsimp only
  split_ifs with hone
  · exact ⟨sub_nonneg.mpr hone,(sub_le_self _ zero_le_one).trans hle⟩
  · exact ⟨luaTokens_nonneg h now,hle⟩

theorem Kept.read {cell : BucketCell} (h : ∀ e ∈ cell, L.Kept e.value) (clock : ℚ) :
    ∀ d ∈ Expiring.read clock cell, L.Kept d := by
  intro d hd
  obtain ⟨e,rfl,-,rfl⟩ := read_eq_some.mp hd
  exact h e rfl

theorem Kept.eval {cell : BucketCell} (h : ∀ e ∈ cell, L.Kept e.value) (ttl : Option ℚ)
    (x : Acquire) : ∀ e ∈ (L.eval ttl cell x).1, L.Kept e.value := by
  intro e he
  cases he
  exact Kept.luaScript (Kept.read h x.clock) x.now

/-- Every bucket of the database is kept. -/
def AllKept (L : RedisRateLimiter) (db : BucketDb) : Prop := ∀ key, ∀ e ∈ db key, L.Kept e.value

theorem AllKept.tryAcquire {db : BucketDb} (h : L.AllKept db) (ttl : Option ℚ) (x : Acquire) :
    L.AllKept (L.tryAcquire ttl db x).1 := by
  intro key
  by_cases hkey : key = RATELIMIT_KEY_PREFIX ++ x.key
  · subst hkey
    rw [tryAcquire_self]
    exact Kept.eval (h _) ttl x
  · rw [tryAcquire_of_ne hkey]
    exact h key

theorem AllKept.after {db : BucketDb} (h : L.AllKept db) (ttl : Option ℚ) (xs : List Acquire) :
    L.AllKept (L.after ttl db xs) := by
  induction xs generalizing db with
  | nil => exact h
  | cons x rest ih => exact ih (h.tryAcquire ttl x)

/-! ### The script and the ideal bucket -/

/-- The rate the script is called with. -/
def rate (L : RedisRateLimiter) : Rate ℚ := ⟨L.capacity,L.refillPerMs⟩

/-- The ideal bucket with the fields of a stored hash. -/
def bucketOf (e : Entry ℚ BucketHash) : Bucket ℚ := ⟨e.value.tokens,e.value.ts⟩

/-- A call that comes at or after the stamp of the bucket, and a full refill after it when the
key is already gone. -/
structure Fits (x : Acquire) (e : Entry ℚ BucketHash) : Prop where
  stamp : e.value.ts ≤ x.now
  refilled : ¬ e.Live x.clock → e.value.ts + 60000 ≤ x.now

theorem full_refill : 60000*L.refillPerMs = L.capacity := by
  unfold refillPerMs
  field_simp

/-- On a call that fits, the script counts the tokens of the ideal bucket: a bucket whose key is
gone would have been full again. -/
theorem luaTokens_eq_level {cell : BucketCell} {x : Acquire} (hkept : ∀ e ∈ cell, L.Kept e.value)
    (hfits : ∀ e ∈ cell, Fits x e) :
    luaTokens L.capacity L.refillPerMs x.now (read x.clock cell) =
      L.rate.level x.now (cell.map bucketOf) := by
  cases cell with
  | none => simp [luaTokens,rate,Rate.level]
  | some e =>
    have hstamp := (hfits e rfl).stamp
    by_cases hlive : e.Live x.clock
    · simp [luaTokens,read_of_live hlive,rate,Rate.level,bucketOf,not_lt.mpr hstamp]
    · have hlong := (hfits e rfl).refilled hlive
      have hfull : (L.capacity : ℚ) ≤ e.value.tokens + (x.now - e.value.ts)*L.refillPerMs := by
        have hrefill := mul_le_mul_of_nonneg_right (le_sub_iff_add_le'.mpr hlong)
          (refillPerMs_nonneg (L := L))
        have htokens := (hkept e rfl).nonneg
        rw [full_refill] at hrefill
        linarith
      simp [luaTokens,read_of_not_live hlive,rate,Rate.level,bucketOf,min_eq_left hfull]

theorem luaScript_eq_take {data : Option BucketHash} {b : Option (Bucket ℚ)} {now : ℚ}
    (h : luaTokens L.capacity L.refillPerMs now data = L.rate.level now b) :
    luaScript L.capacity L.refillPerMs now data =
      (⟨(L.rate.take b now).1.level,(L.rate.take b now).1.time⟩,(L.rate.take b now).2) := by
  unfold luaScript Rate.take
  rw [h]
  dsimp only
  split_ifs <;> rfl

/-- The second call follows the first: its stamp is not older and, if the key is gone by then, a
full refill later. -/
def Orderly (ttl : Option ℚ) (x y : Acquire) : Prop :=
  x.now ≤ y.now ∧ ∀ d ∈ ttl, x.clock + d < y.clock → x.now + 60000 ≤ y.now

instance (ttl : Option ℚ) (x y : Acquire) : Decidable (Orderly ttl x y) :=
  inferInstanceAs (Decidable (x.now ≤ y.now ∧ ∀ d ∈ ttl, x.clock + d < y.clock → x.now + 60000 ≤ y.now))

theorem Orderly.fits {ttl : Option ℚ} {x y : Acquire} (h : Orderly ttl x y) {cell : BucketCell} :
    ∀ e ∈ (L.eval ttl cell x).1, Fits y e := by
  intro e he
  cases he
  refine ⟨by simpa [write] using h.1,fun hgone => ?_⟩
  cases ttl with
  | none => exact absurd live_write_none hgone
  | some d =>
    rw [live_write_some,not_le] at hgone
    simpa [write] using h.2 d rfl hgone

/-- On calls each following the one before, a key decides as the ideal bucket does. -/
theorem cellDecisions_eq {ttl : Option ℚ} {xs : List Acquire} (horder : xs.IsChain (Orderly ttl))
    {cell : BucketCell} (hkept : ∀ e ∈ cell, L.Kept e.value)
    (hfits : ∀ e ∈ cell, ∀ x ∈ xs.head?, Fits x e) :
    L.cellDecisions ttl cell xs = L.rate.decisions (cell.map bucketOf) (xs.map Acquire.now) := by
  induction xs generalizing cell with
  | nil => rfl
  | cons x rest ih =>
    have hscript := luaScript_eq_take
      (luaTokens_eq_level hkept fun e he => hfits e he x rfl)
    have hcell : (L.eval ttl cell x).1.map bucketOf =
        some (L.rate.take (cell.map bucketOf) x.now).1 := by
      simp only [eval,hscript,Option.map_some,bucketOf,write]
    have hnext := ih horder.tail (Kept.eval hkept ttl x) fun e he y hy =>
      (List.isChain_cons.mp horder).1 y hy |>.fits e he
    rw [hcell] at hnext
    simp only [cellDecisions,List.map_cons,Rate.decisions,hnext]
    simp [eval,hscript]

/-- The allowed calls of a key in a window, when each call on it follows the one before. -/
theorem allowed_le_of_isChain {ttl : Option ℚ} {xs : List Acquire} {key : String}
    (horder : (xs.filter fun x => x.key == key).IsChain (Orderly ttl)) {s t : ℚ} (hst : s ≤ t) :
    (allowed key s t (L.decisions ttl noBuckets xs) : ℚ) ≤ L.capacity + L.refillPerMs*(t - s) := by
  have hsorted : ((xs.filter fun x => x.key == key).map Acquire.now).Pairwise (· ≤ ·) := by
    rw [← List.isChain_iff_pairwise,List.isChain_map]
    exact horder.imp fun _ _ h => h.1
  have hgranted := Rate.granted_le (R := L.rate) capacity_cast_pos.le refillPerMs_nonneg hst
    hsorted (b := none) fun _ h => by cases h
  rw [allowed_eq,cellDecisions_eq horder (by simp [noBuckets]) (by simp [noBuckets]),
    mul_comm L.refillPerMs]
  exact hgranted

/-- In every run whose stamps on a key arrive in order, a time interval allows at most the
capacity and its refill on that key. -/
theorem allowed_le_of_orderly (L : RedisRateLimiter) (xs : List Acquire) (key : String)
    (horder : (xs.filter fun x => x.key == key).IsChain (Orderly keyTtl)) (a b : ℚ) (hab : a ≤ b) :
    (allowed key a b (L.decisions keyTtl noBuckets xs) : ℚ) ≤
      L.capacity + L.refillPerMs*(b - a) :=
  allowed_le_of_isChain horder hab

/-- Sixty requests stamped at one second, then stamps of zero and one second by turns. -/
def reorderedStamps : List ℚ := List.replicate 60 1000 ++ [0,1000,0,1000]

def reorderedCalls : List Acquire := reorderedStamps.map fun now => ⟨"priya",now,1000⟩

/-- Each stamp that goes back lets the second between the two be refilled again. -/
theorem reordered_stamps_exceed :
    (∀ x ∈ reorderedCalls, x.key = "priya" ∧ 0 ≤ x.now ∧ x.now ≤ 1000 ∧ x.now ≤ x.clock) ∧
      (ofConfigured 60).capacity + (ofConfigured 60).refillPerMs*(1000 - 0) <
        (allowed "priya" 0 1000 ((ofConfigured 60).decisions keyTtl noBuckets reorderedCalls) : ℚ) := by
  decide +kernel

theorem allowed_le_of_orderly_calls :
    (allowed "priya" 0 1000 ((ofConfigured 60).decisions keyTtl noBuckets
      (reorderedCalls.take 61).reverse) : ℚ) ≤
      (ofConfigured 60).capacity + (ofConfigured 60).refillPerMs*(1000 - 0) :=
  allowed_le_of_orderly (ofConfigured 60) (reorderedCalls.take 61).reverse "priya"
    (by decide +kernel) 0 1000 (by norm_num)

/-! ### The expiring key and the key that never expires -/

/-- Two databases with the same buckets, both fitting the calls to come. -/
structure Simulates (xs : List Acquire) (db db' : BucketDb) : Prop where
  same : ∀ key, (db key).map bucketOf = (db' key).map bucketOf
  fits : ∀ key, ∀ e ∈ db key, ∀ x ∈ xs, Fits x e
  fits' : ∀ key, ∀ e ∈ db' key, ∀ x ∈ xs, Fits x e

theorem fits_tryAcquire {ttl : Option ℚ} {db : BucketDb} {x : Acquire} {rest : List Acquire}
    (hfits : ∀ key, ∀ e ∈ db key, ∀ y ∈ x::rest, Fits y e)
    (horder : ∀ y ∈ rest, Orderly ttl x y) :
    ∀ key, ∀ e ∈ (L.tryAcquire ttl db x).1 key, ∀ y ∈ rest, Fits y e := by
  intro key e he y hy
  by_cases hkey : key = RATELIMIT_KEY_PREFIX ++ x.key
  · subst hkey
    rw [tryAcquire_self] at he
    exact (horder y hy).fits e he
  · rw [tryAcquire_of_ne hkey] at he
    exact hfits key e he y (List.mem_cons_of_mem _ hy)

/-- One call keeps the simulation and gets the same answer, whatever the expiry of the two keys. -/
theorem Simulates.step {ttl ttl' : Option ℚ} {x : Acquire} {rest : List Acquire}
    {db db' : BucketDb} (h : Simulates (x::rest) db db') (hkept : L.AllKept db)
    (hkept' : L.AllKept db') (horder : ∀ y ∈ rest, Orderly ttl x y)
    (horder' : ∀ y ∈ rest, Orderly ttl' x y) :
    (L.tryAcquire ttl db x).2 = (L.tryAcquire ttl' db' x).2 ∧
      Simulates rest (L.tryAcquire ttl db x).1 (L.tryAcquire ttl' db' x).1 := by
  have hscript := luaScript_eq_take (luaTokens_eq_level (hkept (RATELIMIT_KEY_PREFIX ++ x.key))
    fun e he => h.fits _ e he x (by simp))
  have hscript' := luaScript_eq_take (luaTokens_eq_level (hkept' (RATELIMIT_KEY_PREFIX ++ x.key))
    fun e he => h.fits' _ e he x (by simp))
  rw [← h.same] at hscript'
  refine ⟨by simp [tryAcquire,eval,hscript,hscript'],fun key => ?_,fits_tryAcquire h.fits horder,
    fits_tryAcquire h.fits' horder'⟩
  by_cases hkey : key = RATELIMIT_KEY_PREFIX ++ x.key
  · subst hkey
    rw [tryAcquire_self,tryAcquire_self]
    simp [eval,hscript,hscript',bucketOf,write]
  · rw [tryAcquire_of_ne hkey,tryAcquire_of_ne hkey]
    exact h.same key

theorem decisions_eq_of_simulates {ttl ttl' : Option ℚ} {xs : List Acquire}
    (horder : xs.Pairwise (Orderly ttl)) (horder' : xs.Pairwise (Orderly ttl'))
    {db db' : BucketDb} (h : Simulates xs db db') (hkept : L.AllKept db) (hkept' : L.AllKept db') :
    L.decisions ttl db xs = L.decisions ttl' db' xs := by
  induction xs generalizing db db' with
  | nil => rfl
  | cons x rest ih =>
    obtain ⟨hx,hrest⟩ := List.pairwise_cons.mp horder
    obtain ⟨hx',hrest'⟩ := List.pairwise_cons.mp horder'
    obtain ⟨hanswer,hnext⟩ := h.step hkept hkept' hx hx'
    simp only [decisions,hanswer]
    rw [ih hrest hrest' hnext (hkept.tryAcquire ttl x) (hkept'.tryAcquire ttl' x)]

/-- On one clock that never goes back, calls are in order: the key outlives a full refill. -/
theorem pairwise_orderly {xs : List Acquire} (hclock : ∀ x ∈ xs, x.clock = x.now)
    (hmono : xs.Pairwise fun x y => x.now ≤ y.now) (ttl : Option ℚ) (httl : ∀ d ∈ ttl, 60000 ≤ d) :
    xs.Pairwise (Orderly ttl) := by
  refine hmono.imp_of_mem fun {x y} hx hy hle => ⟨hle,fun d hd hgone => ?_⟩
  have hlong := httl d hd
  rw [hclock x hx,hclock y hy] at hgone
  linarith

/-- With nondecreasing times the expiry of the key changes no decision, the tokens stay between
nothing and the capacity, and every window allows at most the capacity and its refill. -/
theorem expiring_refines_ideal (L : RedisRateLimiter) (xs : List Acquire)
    (hclock : ∀ x ∈ xs, x.clock = x.now) (hmono : xs.Pairwise fun x y => x.now ≤ y.now) :
    L.decisions keyTtl noBuckets xs = L.decisions none noBuckets xs ∧
      (∀ n key, ∀ e ∈ L.after keyTtl noBuckets (xs.take n) key,
        0 ≤ e.value.tokens ∧ e.value.tokens ≤ L.capacity) ∧
      ∀ key s t, s ≤ t → (allowed key s t (L.decisions keyTtl noBuckets xs) : ℚ) ≤
        L.capacity + L.refillPerMs*(t - s) := by
  have horder := pairwise_orderly hclock hmono keyTtl fun d hd => by
    cases hd
    norm_num [TTL_SECONDS]
  have hnever := pairwise_orderly hclock hmono none fun d hd => by cases hd
  have hempty : L.AllKept noBuckets := fun key e he => by cases he
  refine ⟨?_,fun n key e he => ?_,fun key s t hst => ?_⟩
  · exact decisions_eq_of_simulates horder hnever
      ⟨fun _ => rfl,fun _ e he => (by cases he),fun _ e he => (by cases he)⟩ hempty hempty
  · have hkept := hempty.after keyTtl (xs.take n) key e he
    exact ⟨hkept.nonneg,hkept.le_capacity⟩
  · exact allowed_le_of_isChain (List.Pairwise.isChain (horder.sublist List.filter_sublist)) hst

/-- Two bursts further apart than the expiry of the key. -/
def burstCalls : List Acquire :=
  [0,0,60000,60000,180001].map fun now => ⟨"priya",now,now⟩

theorem expiring_refines_ideal_burstCalls :
    (ofConfigured 1).decisions keyTtl noBuckets burstCalls =
        (ofConfigured 1).decisions none noBuckets burstCalls ∧
      (∀ n key, ∀ e ∈ (ofConfigured 1).after keyTtl noBuckets (burstCalls.take n) key,
        0 ≤ e.value.tokens ∧ e.value.tokens ≤ (ofConfigured 1).capacity) ∧
      ∀ key s t, s ≤ t →
        (allowed key s t ((ofConfigured 1).decisions keyTtl noBuckets burstCalls) : ℚ) ≤
          (ofConfigured 1).capacity + (ofConfigured 1).refillPerMs*(t - s) :=
  expiring_refines_ideal (ofConfigured 1) burstCalls (by decide +kernel) (by decide +kernel)

end RedisRateLimiter
end AtlasCompliance.Gateway
