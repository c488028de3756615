import ChainRead.Proofs.Cache.Operations
import ChainRead.Proofs.Source.Answers
import ChainRead.Source.Cached

/-! # What caches hold

An entry's fetch makes the inner call for the entry's key, and a fetch that ended has what the
source answers to that call. Requests, waits and whatever drops entries keep this, so a cache can
only answer what the source would.
-/

namespace ChainRead

variable {K V σ : Type} {g : K → Except BackingError V}

namespace Cache

def Fetches (c : Cache K K V) (id : Nat) (key : K) : Prop :=
  ∃ fetch, c.fetches[id]? = some fetch ∧ fetch.job = key

/-- A cache of what `g` gives: entries have fetches for their keys, and fetches that ended have
what `g` gives for theirs. -/
structure Faithful (g : K → Except BackingError V) (c : Cache K K V) : Prop where
  entries : ∀ e ∈ c.entries, c.Fetches e.fetch e.key
  outcomes : ∀ (id : Nat) fetch, c.fetches[id]? = some fetch →
    ∀ o, fetch.outcome = some o → o = g fetch.job

/-- Later fetches leave earlier ones their keys. -/
def Extends (c d : Cache K K V) : Prop := ∀ id key, c.Fetches id key → d.Fetches id key

variable {c : Cache K K V}

theorem Extends.refl (c : Cache K K V) : c.Extends c := fun _ _ h => h

theorem Faithful.new (config : CacheConfig) : Faithful g { config } where
  entries _ h := by cases h
  outcomes _ _ h := by cases h

theorem Faithful.drop (h : c.Faithful g) {entries : List (CacheEntry K)}
    (hs : ∀ e ∈ entries, e ∈ c.entries) : Faithful g { c with entries } :=
  ⟨fun e he => h.entries e (hs e he), h.outcomes⟩

theorem Faithful.clear (h : c.Faithful g) : c.clear.Faithful g :=
  h.drop fun _ he => by cases he

section Requests

variable [DecidableEq K] {now : Nat} {key : K}

theorem extends_start (now : Nat) (key : K) (c : Cache K K V) :
    c.Extends (c.start now key key).2 := by
  rintro id k ⟨fetch, hf, hk⟩
  exact ⟨fetch, getElem?_start_fetches hf, hk⟩

theorem fetches_start : (c.start now key key).2.Fetches (c.start now key key).1 key :=
  ⟨⟨key, key, none⟩, Array.getElem?_push_size, rfl⟩

theorem Faithful.start (h : c.Faithful g) : (c.start now key key).2.Faithful g where
  entries e he := by
    rcases mem_start_entries.mp he with rfl | ⟨he, -⟩
    · exact fetches_start
    · exact extends_start now key c _ _ (h.entries e (mem_of_mem_makeRoom he))
  outcomes id fetch hf := by
    rw [start_fetches, Array.getElem?_push] at hf
    split at hf
    · cases hf
      exact fun _ ho => by cases ho
    · exact h.outcomes id fetch hf

/-- A request for a key gets a fetch for it, whether that was there before or not. -/
theorem Faithful.get (h : c.Faithful g) (now : Nat) (key : K) :
    (c.get now key key).2.Faithful g ∧ (c.get now key key).2.Fetches (c.get now key key).1 key ∧
      c.Extends (c.get now key key).2 := by
  have started : (c.start now key key).2.Faithful g ∧
      (c.start now key key).2.Fetches (c.start now key key).1 key ∧
      c.Extends (c.start now key key).2 := ⟨h.start, fetches_start, extends_start now key c⟩
  rcases c.get_cases now key key with ⟨e, he, rfl, -, heq⟩ | ⟨-, heq⟩ <;> rw [heq]
  · exact ⟨h, h.entries e he, .refl c⟩
  · exact started

end Requests

theorem Faithful.complete {id : Nat} {key : K} (h : c.Faithful g) (hk : c.Fetches id key) :
    (c.complete id (g key)).Faithful g ∧ c.Extends (c.complete id (g key)) := by
  obtain ⟨own, ho, rfl⟩ := hk
  have hf : (c.complete id (g own.job)).fetches =
      c.fetches.modify id fun f => { f with outcome := some (g own.job) } := complete_fetches
  have he : c.Extends (c.complete id (g own.job)) := by
    rintro i k ⟨fetch, hi, hj⟩
    refine ⟨if id = i then { fetch with outcome := some (g own.job) } else fetch, ?_, ?_⟩
    · rw [hf, Array.getElem?_modify, hi]
      split <;> rfl
    · split <;> exact hj
  refine ⟨⟨fun e hm => he _ _ (h.entries e (mem_of_mem_complete hm)), fun i fetch hi o hout => ?_⟩,
    he⟩
  rw [hf, Array.getElem?_modify] at hi
  split at hi
  · next heq =>
    subst heq
    rw [ho] at hi
    cases hi
    cases hout
    rfl
  · exact h.outcomes i fetch hi o hout

theorem Faithful.await {id : Nat} {key : K} (h : c.Faithful g) (hk : c.Fetches id key)
    (run : K → Fallible BackingError σ V) (hr : ∀ k s, (run k s).1 = g k) (s : σ) :
    (Cache.await run id (s, c)).1 = g key ∧ (Cache.await run id (s, c)).2.2.Faithful g ∧
      c.Extends (Cache.await run id (s, c)).2.2 := by
  obtain ⟨fetch, hf, rfl⟩ := hk
  have hc := h.complete ⟨fetch, hf, rfl⟩
  unfold Cache.await
  simp only [hf]
  cases ho : fetch.outcome with
  | some o => exact ⟨h.outcomes id fetch hf o ho, h, .refl c⟩
  | none =>
    have hg := hr fetch.job s
    rcases hx : run fetch.job s with ⟨o, s'⟩
    rw [hx] at hg
    obtain rfl : o = g fetch.job := hg
    exact ⟨rfl, hc⟩

end Cache

namespace Cached

variable {f : (c : Call) → Except BackingError c.Answer}

structure Faithful (f : (c : Call) → Except BackingError c.Answer) (s : Cached σ) : Prop where
  storage : s.storage.Faithful fun key => f (.storage key.1 key.2)
  contracts : s.contracts.Faithful fun target => f (.isContract target)
  proofs : s.proofs.Faithful fun key => f (.proofs key.1 key.2)

/-- The fetch with a number makes a call. -/
def Requested (s : Cached σ) (id : Nat) : Call → Prop
  | .storage target slot => s.storage.Fetches id (target, slot)
  | .isContract target => s.contracts.Fetches id target
  | .hashedBytes _ => True
  | .proofs target slots => s.proofs.Fetches id (target, slots)

/-- The state caches what `f` answers, and what was requested before still is. -/
structure Kept (f : (c : Call) → Except BackingError c.Answer) (s t : Cached σ) : Prop where
  faithful : t.Faithful f
  storage : s.storage.Extends t.storage
  contracts : s.contracts.Extends t.contracts
  proofs : s.proofs.Extends t.proofs

variable {s t u : Cached σ}

theorem Kept.requested (h : Kept f s t) {id : Nat} {c : Call} (hr : s.Requested id c) :
    t.Requested id c := by
  cases c with
  | storage => exact h.storage _ _ hr
  | isContract => exact h.contracts _ _ hr
  | hashedBytes => trivial
  | proofs => exact h.proofs _ _ hr

theorem Kept.trans (h : Kept f s t) (h' : Kept f t u) : Kept f s u where
  faithful := h'.faithful
  storage id key hk := h'.storage id key (h.storage id key hk)
  contracts id key hk := h'.contracts id key (h.contracts id key hk)
  proofs id key hk := h'.proofs id key (h.proofs id key hk)

theorem Faithful.new (config : CacheConfig) (inner : σ) : (new config inner).Faithful f :=
  ⟨.new config, .new config, .new config⟩

variable (h : s.Faithful f)
include h

theorem Faithful.clear : Kept f s s.clear :=
  ⟨⟨h.storage.clear, h.contracts.clear, h.proofs.clear⟩, .refl _, .refl _, .refl _⟩

theorem Faithful.advance (inner : σ) : Kept f s { s with inner } :=
  ⟨⟨h.storage, h.contracts, h.proofs⟩, .refl _, .refl _, .refl _⟩

theorem Faithful.request (now : σ → Nat) (c : Call) :
    (request now c s).2.Requested (request now c s).1 c ∧ Kept f s (request now c s).2 := by
  cases c with
  | storage target slot =>
    obtain ⟨hc, hr, he⟩ := h.storage.get (now s.inner) (target, slot)
    exact ⟨hr, ⟨hc, h.contracts, h.proofs⟩, he, .refl _, .refl _⟩
  | isContract target =>
    obtain ⟨hc, hr, he⟩ := h.contracts.get (now s.inner) target
    exact ⟨hr, ⟨h.storage, hc, h.proofs⟩, .refl _, he, .refl _⟩
  | hashedBytes => exact ⟨trivial, h, .refl _, .refl _, .refl _⟩
  | proofs target slots =>
    obtain ⟨hc, hr, he⟩ := h.proofs.get (now s.inner) (target, slots)
    exact ⟨hr, ⟨h.storage, h.contracts, hc⟩, .refl _, .refl _, he⟩

variable {src : Source σ} (hf : src.AnswersBy f)
include hf

theorem Faithful.wait {c : Call} {id : Nat} (hr : s.Requested id c) :
    (wait src c id s).1 = f c ∧ Kept f s (wait src c id s).2 := by
  cases c with
  | storage =>
    obtain ⟨ha, hc, he⟩ := h.storage.await hr _ (fun key => hf (.storage key.1 key.2)) s.inner
    exact ⟨ha, ⟨hc, h.contracts, h.proofs⟩, he, .refl _, .refl _⟩
  | isContract =>
    obtain ⟨ha, hc, he⟩ := h.contracts.await hr _ (fun a => hf (.isContract a)) s.inner
    exact ⟨ha, ⟨h.storage, hc, h.proofs⟩, .refl _, he, .refl _⟩
  | hashedBytes hash => exact ⟨hf (.hashedBytes hash) s.inner, h.advance _⟩
  | proofs =>
    obtain ⟨ha, hc, he⟩ := h.proofs.await hr _ (fun key => hf (.proofs key.1 key.2)) s.inner
    exact ⟨ha, ⟨h.storage, h.contracts, hc⟩, .refl _, .refl _, he⟩

/-- A cached source answers what the inner source would. -/
theorem Faithful.answer (now : σ → Nat) (c : Call) :
    ((src.cached now).answer c s).1 = f c ∧ Kept f s ((src.cached now).answer c s).2 := by
  obtain ⟨hr, hq⟩ := h.request now c
  obtain ⟨ha, hw⟩ := hq.faithful.wait hf hr
  exact ⟨ha, hq.trans hw⟩

end Cached

end ChainRead
