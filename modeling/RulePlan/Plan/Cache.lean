import RulePlan.Plan.Compile

/-!
# RulePlan.Plan.Cache — recently used plans

The cache keeps a limited number of values by key, the most recently used first, each with the time
it was stored. A value older than the allowed age is dropped when it is asked for. Hits and misses
are counted. Times are in nanoseconds.
-/

namespace RulePlan

/-- A cached value with its key and the time it was stored. -/
structure CacheEntry (α : Type) where
  key : String
  value : α
  stored : Int

/-- Values by key, the most recently used first. -/
structure Cache (α : Type) where
  capacity : Nat
  maxAge : Int
  entries : List (CacheEntry α)
  hits : Nat
  misses : Nat

namespace Cache

/-- The capacity of a cache for which none is given. -/
def defaultCapacity : Nat := 128

/-- The age limit of a cache for which none is given: five minutes. -/
def defaultMaxAge : Int := 300000000000

/-- An empty cache; numbers that are not positive mean the defaults. -/
def create (capacity maxAge : Int) : Cache α :=
  { capacity := if capacity ≤ 0 then defaultCapacity else capacity.toNat
    maxAge := if maxAge ≤ 0 then defaultMaxAge else maxAge
    entries := []
    hits := 0
    misses := 0 }

/-- The entries under other keys. -/
def others (c : Cache α) (key : String) : List (CacheEntry α) := c.entries.filter (·.key != key)

/-- Looks a key up at a time. -/
def get (c : Cache α) (now : Int) (key : String) : Cache α × Option α :=
  match c.entries.find? (·.key == key) with
  | none => ({ c with misses := c.misses + 1 }, none)
  | some e =>
    if c.maxAge < now - e.stored then
      ({ c with entries := c.others key, misses := c.misses + 1 }, none)
    else ({ c with entries := e :: c.others key, hits := c.hits + 1 }, some e.value)

/-- Stores a value at a time; beyond the capacity the least recently used entry is dropped. -/
def set (c : Cache α) (now : Int) (key : String) (value : α) : Cache α :=
  { c with entries := (⟨key, value, now⟩ :: c.others key).take c.capacity }

/-- Drops everything and starts counting anew. -/
def clear (c : Cache α) : Cache α := { c with entries := [], hits := 0, misses := 0 }

/-- The number of entries. -/
def size (c : Cache α) : Nat := c.entries.length

end Cache

namespace Plan

/-- Compiles a request through a cache: the plan of an equal earlier request is taken from it, a new
plan is stored in it. -/
def compileCached (cache : Cache Plan) (readAt storeAt : Int) (r : Request) :
    Cache Plan × Traced Plan :=
  let note (name : String) : Event := { name, data := [("key", .text r.key)] }
  match cache.get readAt r.key with
  | (cache, some plan) => (cache, ⟨[note Event.cacheHit], .ok plan⟩)
  | (cache, none) =>
    let t := (compile r).after [note Event.cacheMiss]
    match t.result with
    | .ok plan => (cache.set storeAt r.key plan, t)
    | .error _ => (cache, t)

end Plan

end RulePlan
