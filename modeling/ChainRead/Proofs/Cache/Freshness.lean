import ChainRead.Proofs.Cache.History
import ChainRead.Proofs.Evaluation.Sharing

/-! # What caches serve is fresh

A request shares an earlier fetch only if this was started for the same key within the time to
live, and nothing dropped the key since. Once a cached source is cleared, whatever was registered
before is out of reach: no call is answered from a fetch with an earlier number.
-/

namespace ChainRead

namespace Cache

variable {σ K J V : Type} [DecidableEq K]

/-! ## Entries -/

section Entries

variable {run : J → Fallible BackingError σ V}

/-- The request started the fetch with this number less than the time to live ago, and nothing
dropped its key since. -/
structure Request.Fresh (run : J → Fallible BackingError σ V) (s : Timed σ K J V) (r : Request K J)
    (id : Nat) : Prop where
  starts : r.Starts run s id
  unexpired : (s.after run r.events).clock < (r.arrival run s).clock + s.cache.config.ttl
  kept : .remove r.key ∉ r.since
  uncleared : .clear ∉ r.since

variable {config : CacheConfig} {outside : σ} {clock : Nat} {events : List (Event K J)}

theorem Timed.fresh_of_mem {e : CacheEntry K}
    (he : e ∈ ((new config outside clock).after run events).cache.entries)
    (hl : ((new config outside clock).after run events).clock < e.expires) :
    ∃ r : Request K J, r.events = events ∧ r.key = e.key ∧
      r.Fresh run (new config outside clock) e.fetch := by
  have hs : (new config outside clock : Timed σ K J V).Proper := .new config outside clock
  obtain ⟨r, rfl, hr⟩ := exists_starts ((hs.after run events).fetches e he)
  obtain ⟨heq, hk, hc⟩ := hr.entry_eq hs he rfl
  rw [heq] at hl
  have hl : _ < (r.arrival run _).clock + (r.arrival run _).cache.config.ttl := hl
  rw [Request.arrival, after_config] at hl
  exact ⟨r, rfl, (congrArg CacheEntry.key heq).symm, hr, hl, hk, hc⟩

end Entries

theorem peek_some {c : Cache K J V} {now : Nat} {key : K} {v : V} (h : c.peek now key = some v) :
    ∃ e ∈ c.entries, e.key = key ∧ now < e.expires ∧ c.outcome? e.fetch = some (.ok v) := by
  obtain ⟨e, he, h⟩ := Option.bind_eq_some_iff.mp h
  obtain ⟨hm, hk⟩ := find?_some he
  by_cases hl : now < e.expires
  · rw [if_pos hl] at h
    refine ⟨e, hm, hk, hl, ?_⟩
    split at h
    · next v' ho =>
      cases h
      exact ho
    · cases h
  · rw [if_neg hl] at h
    cases h

/-! ## Numbers of fetches -/

structure Since (n : Nat) (c : Cache K J V) : Prop where
  size : n ≤ c.fetches.size
  entries : ∀ e ∈ c.entries, n ≤ e.fetch

namespace Since

variable {n : Nat} {c : Cache K J V}

omit [DecidableEq K] in
theorem clear (h : n ≤ c.fetches.size) : c.clear.Since n :=
  ⟨h, fun _ he => nomatch he⟩

theorem get (h : c.Since n) (now : Nat) (key : K) (job : J) :
    n ≤ (c.get now key job).1 ∧ (c.get now key job).2.Since n := by
  rcases c.get_cases now key job with ⟨e, he, -, -, heq⟩ | ⟨-, heq⟩ <;> rw [heq]
  · exact ⟨h.entries e he, h⟩
  · refine ⟨h.size, ?_, fun e he => ?_⟩
    · rw [start_fetches, Array.size_push]
      exact Nat.le_succ_of_le h.size
    · rcases mem_start_entries.mp he with rfl | ⟨he, -⟩
      · exact h.size
      · exact h.entries e (mem_of_mem_makeRoom he)

omit [DecidableEq K] in
theorem await (h : c.Since n) (run : J → Fallible BackingError σ V) (id : Nat) (s : σ) :
    (Cache.await run id (s, c)).2.2.Since n := by
  rcases await_cases run id s c with ⟨-, heq⟩ | ⟨f, -, -, heq⟩ <;> rw [heq]
  · exact h
  · exact ⟨by simpa using h.size, fun e he => h.entries e (mem_of_mem_complete he)⟩

end Since

end Cache

/-! ## Cached sources -/

namespace Cached

variable {σ : Type}

/-- How many fetches were started for calls of the kind. Supplied bytes have none. -/
def registered (s : Cached σ) : Call → Nat
  | .storage .. => s.storage.fetches.size
  | .isContract _ => s.contracts.fetches.size
  | .hashedBytes _ => 0
  | .proofs .. => s.proofs.fetches.size

/-- What is cached was requested after all that had been registered in another state. -/
structure Since (s old : Cached σ) : Prop where
  storage : s.storage.Since old.storage.fetches.size
  contracts : s.contracts.Since old.contracts.fetches.size
  proofs : s.proofs.Since old.proofs.fetches.size

namespace Since

variable {old s : Cached σ}

theorem clear (s : Cached σ) : s.clear.Since s :=
  ⟨.clear (Nat.le_refl _), .clear (Nat.le_refl _), .clear (Nat.le_refl _)⟩

variable (h : s.Since old)
include h

theorem cleared : s.clear.Since old :=
  ⟨.clear h.storage.size, .clear h.contracts.size, .clear h.proofs.size⟩

theorem advance (inner : σ) : Since { s with inner } old :=
  ⟨h.storage, h.contracts, h.proofs⟩

theorem request (now : σ → Nat) (c : Call) :
    old.registered c ≤ (Cached.request now c s).1 ∧ (Cached.request now c s).2.Since old := by
  cases c with
  | storage target slot =>
    obtain ⟨hn, hs⟩ := h.storage.get (now s.inner) (target, slot) (target, slot)
    exact ⟨hn, hs, h.contracts, h.proofs⟩
  | isContract target =>
    obtain ⟨hn, hs⟩ := h.contracts.get (now s.inner) target target
    exact ⟨hn, h.storage, hs, h.proofs⟩
  | hashedBytes hash => exact ⟨Nat.zero_le _, h⟩
  | proofs target slots =>
    obtain ⟨hn, hs⟩ := h.proofs.get (now s.inner) (target, slots) (target, slots)
    exact ⟨hn, h.storage, h.contracts, hs⟩

theorem wait (src : Source σ) (c : Call) (id : Nat) : (Cached.wait src c id s).2.Since old := by
  cases c with
  | storage =>
    have hs := h.storage.await (fun key => src.answer (.storage key.1 key.2)) id s.inner
    exact ⟨hs, h.contracts, h.proofs⟩
  | isContract =>
    have hs := h.contracts.await (fun target => src.answer (.isContract target)) id s.inner
    exact ⟨h.storage, hs, h.proofs⟩
  | hashedBytes => exact ⟨h.storage, h.contracts, h.proofs⟩
  | proofs =>
    have hs := h.proofs.await (fun key => src.answer (.proofs key.1 key.2)) id s.inner
    exact ⟨h.storage, h.contracts, hs⟩

theorem answer (now : σ → Nat) (src : Source σ) (c : Call) :
    ((src.cached now).answer c s).2.Since old :=
  (h.request now c).2.wait src c _

end Since

end Cached

variable {σ τ : Type}

def Source.refusing (now : σ → Nat) (src : Source σ) (old : Cached σ) : Source (Cached σ) where
  answer c := fun s =>
    if (Cached.request now c s).1 < old.registered c then (.error ⟨"stale"⟩, s)
    else (src.cached now).answer c s

namespace Access

/-- Behind caches, where calls are refused whose fetch was registered before a given state. -/
def refusing (now : σ → Nat) (src : Source σ) (old : Cached σ) : Access σ (Cached σ) :=
  { cached now src with source := src.refusing now old }

variable {now : σ → Nat} {src : Source σ} {old : Cached σ}

theorem refusing_answer {s : Cached σ} (h : s.Since old) (c : Call) :
    (src.refusing now old).answer c s = (src.cached now).answer c s :=
  if_neg (Nat.not_lt_of_le (h.request now c).1)

theorem refusing_alike (now : σ → Nat) (src : Source σ) (old : Cached σ) :
    (src.refusing now old).Alike (src.cached now) fun s t => s = t ∧ t.Since old := by
  refine fun c => .of_same ?_
  rintro s _ ⟨rfl, h⟩
  rw [refusing_answer h]
  exact ⟨rfl, rfl, h.answer now src c⟩

theorem refusing_use (now : σ → Nat) (src : Source σ) (use : Use σ) {u : Usage (Cached σ)}
    (h : u.state.Since old) :
    (refusing now src old).use use u = (cached now src).use use u ∧
      ((cached now src).use use u).2.state.Since old := by
  cases use with
  | call c =>
    refine ⟨?_, h.answer now src c⟩
    simp only [Access.use, refusing, cached, refusing_answer h]
  | request c => exact ⟨rfl, (h.request now c).2⟩
  | wait index =>
    refine ⟨rfl, ?_⟩
    simp only [Access.use]
    split
    · exact h
    · exact h.wait src _ _
  | clear => exact ⟨rfl, h.cleared⟩
  | advance f => exact ⟨rfl, h.advance _⟩
  | evaluate config program phases =>
    have hu : u.state = u.state ∧ u.state.Since old := ⟨rfl, h⟩
    obtain ⟨hr, hs, hi⟩ := (refusing_alike now src old).perform config program phases hu
    exact ⟨Prod.ext (congrArg Reply.evaluation hr) (congrArg (Usage.mk · u.requests) hs), hi⟩

theorem refusing_useAll (now : σ → Nat) (src : Source σ) (uses : List (Use σ))
    {u : Usage (Cached σ)} (h : u.state.Since old) :
    (refusing now src old).useAll uses u = (cached now src).useAll uses u ∧
      ((cached now src).useAll uses u).2.state.Since old := by
  induction uses generalizing u with
  | nil => exact ⟨rfl, h⟩
  | cons use uses ih =>
    obtain ⟨heq, hs⟩ := refusing_use now src use h
    obtain ⟨heqs, hss⟩ := ih hs
    rw [useAll_cons, useAll_cons, heq, heqs]
    exact ⟨rfl, hss⟩

end Access

/-- After every history, a request either starts a fetch or shares one that is fresh, and a value
that is peeked at is what a fresh fetch has ended with. Once a cached source is cleared, whatever it
held and whatever was requested of it, it is used with later fetches only: refusing the calls whose
fetch was registered before changes nothing. -/
theorem never_stale {K J V : Type} [DecidableEq K] (run : J → Fallible BackingError σ V)
    (config : CacheConfig) (outside : σ) (clock : Nat) (events : List (Cache.Event K J))
    (now : τ → Nat) (src : Source τ) (u : Access.Usage (Cached τ)) (uses : List (Use τ)) :
    let s := Cache.Timed.new config outside clock
    let t := s.after run events
    let cleared := (Access.cached now src).useAll (.clear :: uses) u
    (∀ key job, t.cache.get t.clock key job = t.cache.start t.clock key job ∨
      ∃ r : Cache.Request K J, r.events = events ∧ r.key = key ∧
        r.Fresh run s (t.cache.get t.clock key job).1) ∧
    (∀ key v, t.cache.peek t.clock key = some v →
      ∃ (r : Cache.Request K J) (id : Nat), r.events = events ∧ r.key = key ∧ r.Fresh run s id ∧
        r.Ended run s id (.ok v)) ∧
    cleared = (Access.refusing now src u.state).useAll (.clear :: uses) u ∧
    ∀ c, u.state.registered c ≤ (Cached.request now c cleared.2.state).1 := by
  intro s t cleared
  -- from the clearing on, whatever is cached was requested later
  have hc : ((Access.cached now src).use .clear u).2.state.Since u.state := .clear u.state
  obtain ⟨heq, hs⟩ := Access.refusing_useAll now src uses hc
  refine ⟨fun key job => ?_, fun key v hv => ?_, ?_, fun c => (hs.request now c).1⟩
  · rcases t.cache.get_cases t.clock key job with ⟨e, he, rfl, hl, heq⟩ | ⟨-, heq⟩
    · exact Or.inr (by rw [heq]; exact Cache.Timed.fresh_of_mem he hl)
    · exact Or.inl heq
  · obtain ⟨e, he, rfl, hl, ho⟩ := Cache.peek_some hv
    obtain ⟨r, rfl, hk, hr⟩ := Cache.Timed.fresh_of_mem he hl
    exact ⟨r, e.fetch, rfl, hk, hr, hr.starts.ended ho⟩
  · exact congrArg (fun p => (Reply.nothing :: p.1, p.2)) heq.symm

/-- A fetch is shared until its entry expires, and the one that was under way when the source was
cleared is not shared by the call after that. -/
theorem never_stale_chain :
    let run : Nat → Fallible BackingError Unit Nat := fun job s => (.ok job, s)
    let t := (Cache.Timed.new ⟨5, 16⟩ () 0).after run [.get 7 1, .advance 4]
    let t' := t.next run (.advance 1)
    let chain : Chain := Chain.withStorage {} 7 3 5
    let u := ((Access.cached id chain.source).use (.request (.storage 7 3))
      { state := .new ⟨5, 16⟩ 0 }).2
    let cleared := ((Access.cached id chain.source).useAll [.clear, .wait 0] u).2
    (t.cache.get t.clock 7 2).1 = 0 ∧ (t'.cache.get t'.clock 7 2).1 = 1 ∧
      u.state.registered (.storage 7 3) = 1 ∧
      u.state.registered (.storage 7 3) ≤
        (Cached.request id (.storage 7 3) cleared.state).1 := by
  intro run t t' chain u cleared
  refine ⟨by decide +kernel, by decide +kernel, by decide +kernel, ?_⟩
  exact (never_stale run ⟨5, 16⟩ () 0 [.get 7 1, .advance 4] id chain.source u [.wait 0]).2.2.2
    (.storage 7 3)

end ChainRead
