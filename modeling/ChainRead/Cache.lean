import ChainRead.Error
import ChainRead.Fallible

/-! # Caches of fetches

A cache maps keys to fetches, which may still be outstanding. A request for a key with a live
entry shares that entry's fetch; any other request starts a new one and registers it at once. A
fetch that fails takes its own entry with it, if that is still there.
-/

namespace ChainRead

/-- How long an entry lives, in milliseconds, and the number of entries from which on a new one
makes room for itself. -/
structure CacheConfig where
  ttl : Nat := 60000
  maxCached : Nat := 10000
  deriving DecidableEq, Repr

/-- A fetch of `key` by doing `job`, and how it ended if it did. -/
structure Fetch (K J V : Type) where
  key : K
  job : J
  outcome : Option (Except BackingError V) := none

structure CacheEntry (K : Type) where
  key : K
  fetch : Nat
  inserted : Nat
  expires : Nat

structure Cache (K J V : Type) where
  config : CacheConfig := {}
  entries : List (CacheEntry K) := []
  /-- All fetches that were started, by number. -/
  fetches : Array (Fetch K J V) := #[]

namespace Cache

variable {K J V : Type} [DecidableEq K]

def find? (c : Cache K J V) (key : K) : Option (CacheEntry K) :=
  c.entries.find? fun e => e.key == key

def size (c : Cache K J V) : Nat := c.entries.length

def oldest? : List (CacheEntry K) → Option (CacheEntry K)
  | [] => none
  | e :: rest => match oldest? rest with
    | some f => if f.inserted < e.inserted then some f else some e
    | none => some e

/-- Make room for an entry: without room, the expired entries go, and then the oldest one. -/
def makeRoom (c : Cache K J V) (now : Nat) : List (CacheEntry K) :=
  if c.entries.length < c.config.maxCached then c.entries
  else
    let live := c.entries.filter fun e => now < e.expires
    if live.length < c.config.maxCached then live
    else match oldest? live with
      | some oldest => live.filter fun e => e.key != oldest.key
      | none => live

/-- Start a fetch and register it in place of the key's entry. -/
def start (now : Nat) (key : K) (job : J) : StateM (Cache K J V) Nat := fun c =>
  let id := c.fetches.size
  let others := (c.makeRoom now).filter fun e => e.key != key
  (id, { c with
    entries := ⟨key, id, now, now + c.config.ttl⟩ :: others
    fetches := c.fetches.push ⟨key, job, none⟩ })

/-- The number of the fetch for `key`. A new one is started if no live entry has one. -/
def get (now : Nat) (key : K) (job : J) : StateM (Cache K J V) Nat := fun c =>
  match c.find? key with
  | some e => if now < e.expires then (e.fetch, c) else start now key job c
  | none => start now key job c

def outcome? (c : Cache K J V) (id : Nat) : Option (Except BackingError V) :=
  c.fetches[id]?.bind Fetch.outcome

/-- Record how a fetch ended. A failure removes the entry that the fetch was registered with. -/
def complete (id : Nat) (outcome : Except BackingError V) (c : Cache K J V) : Cache K J V :=
  let c := { c with fetches := c.fetches.modify id fun f => { f with outcome := some outcome } }
  match outcome with
  | .ok _ => c
  | .error _ => { c with entries := c.entries.filter fun e => e.fetch != id }

/-- Wait for a fetch. Its job is done at the first wait, and every wait has the same result. -/
def await {σ : Type} (run : J → Fallible BackingError σ V) (id : Nat) :
    Fallible BackingError (σ × Cache K J V) V := fun (s, c) =>
  match c.fetches[id]? with
  | none => (.error ⟨s!"no fetch has the number {id}"⟩, (s, c))
  | some fetch =>
    match fetch.outcome with
    | some outcome => (outcome, (s, c))
    | none =>
      let (outcome, s) := run fetch.job s
      (outcome, (s, c.complete id outcome))

/-- The value of a key, if its entry is live and its fetch has succeeded. -/
def peek (c : Cache K J V) (now : Nat) (key : K) : Option V := do
  let e ← c.find? key
  if now < e.expires then
    match c.outcome? e.fetch with
    | some (.ok v) => some v
    | _ => none
  else none

def remove (key : K) (c : Cache K J V) : Cache K J V :=
  { c with entries := c.entries.filter fun e => e.key != key }

def clear (c : Cache K J V) : Cache K J V := { c with entries := [] }

def ran (c : Cache K J V) : Nat := c.fetches.countP fun f => f.outcome.isSome

end Cache

end ChainRead
