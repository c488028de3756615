import ChainRead.Cache
import ChainRead.Source.Basic

/-! # Cached sources

A cached source keeps storage words, code checks and proofs in three caches, so that evaluations
share the calls. Byte strings supplied for their hash are not kept. A call registers its fetch when
it is made, and the fetch makes the inner call when its answer is first waited for.
-/

namespace ChainRead

/-- The state of a cached source: the inner state and the caches, whose fetches make the inner call
for their key. -/
structure Cached (σ : Type) where
  inner : σ
  storage : Cache (Address × Word) (Address × Word) Word
  contracts : Cache Address Address Bool
  proofs : Cache (Address × List Word) (Address × List Word) AccountProofs

namespace Cached

variable {σ : Type}

def new (config : CacheConfig) (inner : σ) : Cached σ :=
  ⟨inner, { config }, { config }, { config }⟩

def clear (s : Cached σ) : Cached σ :=
  { s with storage := s.storage.clear, contracts := s.contracts.clear, proofs := s.proofs.clear }

/-- Make a call without waiting for its answer. The result is the number of its fetch, of which
calls for supplied bytes have none. `now` reads the clock in the inner state. -/
def request (now : σ → Nat) : Call → StateM (Cached σ) Nat
  | .storage target slot => fun s =>
    let (id, storage) := s.storage.get (now s.inner) (target, slot) (target, slot)
    (id, { s with storage })
  | .isContract target => fun s =>
    let (id, contracts) := s.contracts.get (now s.inner) target target
    (id, { s with contracts })
  | .hashedBytes _ => fun s => (0, s)
  | .proofs target slots => fun s =>
    let (id, proofs) := s.proofs.get (now s.inner) (target, slots) (target, slots)
    (id, { s with proofs })

def wait (src : Source σ) : (c : Call) → Nat → Fallible BackingError (Cached σ) c.Answer
  | .storage .., id => fun s =>
    let (result, inner, storage) := Cache.await
      (fun key => src.answer (.storage key.1 key.2)) id (s.inner, s.storage)
    (result, { s with inner, storage })
  | .isContract _, id => fun s =>
    let (result, inner, contracts) := Cache.await
      (fun target => src.answer (.isContract target)) id (s.inner, s.contracts)
    (result, { s with inner, contracts })
  | .hashedBytes hash, _ => fun s =>
    let (result, inner) := src.answer (.hashedBytes hash) s.inner
    (result, { s with inner })
  | .proofs .., id => fun s =>
    let (result, inner, proofs) := Cache.await
      (fun key => src.answer (.proofs key.1 key.2)) id (s.inner, s.proofs)
    (result, { s with inner, proofs })

end Cached

def Source.cached {σ : Type} (now : σ → Nat) (src : Source σ) : Source (Cached σ) where
  answer c := fun s =>
    let (id, s) := Cached.request now c s
    Cached.wait src c id s

end ChainRead
