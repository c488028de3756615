import ChainRead.Proofs.Cache.History

/-! # A failure evicts only itself

A fetch may outlive its entry, which can be removed, replaced or evicted while the fetch is under
way. When the fetch fails it drops the entry that its own request made, and no other entry of the
same key.
-/

namespace ChainRead

namespace Cache

variable {σ K J V : Type} [DecidableEq K]

namespace Timed

variable {run : J → Fallible BackingError σ V} {t : Timed σ K J V}

/-- No entry is for a fetch that failed. -/
def Unfailed (t : Timed σ K J V) : Prop :=
  ∀ e ∈ t.cache.entries, ∀ cause, t.cache.outcome? e.fetch ≠ some (.error cause)

omit [DecidableEq K] in
theorem Unfailed.new (config : CacheConfig) (outside : σ) (clock : Nat) :
    (new config outside clock : Timed σ K J V).Unfailed :=
  fun _ he => nomatch he

theorem Unfailed.next (h : t.Unfailed) (hp : t.Proper) (event : Event K J) :
    (t.next run event).Unfailed := by
  rintro e he cause ho
  have effect := t.next_effect run event
  rcases effect.mem_entries he with ⟨hm, -, -⟩ | ⟨key, job, rfl, heq, rfl⟩
  · obtain ⟨f, hf⟩ : ∃ f, t.cache.fetches[e.fetch]? = some f :=
      ⟨_, Array.getElem?_eq_getElem (hp.fetches e hm)⟩
    obtain ⟨f', hf', -, -, hc⟩ := effect.fetch hf
    simp only [outcome?, hf', Option.bind_some] at ho
    rcases hc with rfl | ⟨rfl, hn, hout⟩
    · exact h e hm cause (by simpa [outcome?, hf] using ho)
    · -- the entry would have gone with its own fetch
      rcases t.next_await run e.fetch with ⟨hs, -⟩ | ⟨g, hg, -, heq⟩
      · exact hs ⟨f, hf, hn⟩
      · obtain rfl : g = f := Option.some.inj (hg.symm.trans hf)
        rw [hout] at ho
        rw [heq, Option.some.inj ho, mem_complete_error] at he
        exact he.2 rfl
  · simp [Timed.next, heq, entryAt, outcome?] at ho

theorem Unfailed.after (h : t.Unfailed) (hp : t.Proper) (events : List (Event K J)) :
    (t.after run events).Unfailed := by
  induction events generalizing t with
  | nil => exact h
  | cons event events ih => exact ih (h.next hp event) (hp.next run event)

end Timed

structure Request.Ends (run : J → Fallible BackingError σ V) (s : Timed σ K J V) (r : Request K J)
    (id : Nat) (t t' : Timed σ K J V) : Prop where
  outcome : t'.cache.outcome? id = some (run r.job t.outside).1
  outside : t'.outside = (run r.job t.outside).2
  clock : t'.clock = t.clock
  config : t'.cache.config = t.cache.config
  fetches : ∀ i ≠ id, t'.cache.fetches[i]? = t.cache.fetches[i]?
  kept : ∀ v, (run r.job t.outside).1 = .ok v → t'.cache.entries = t.cache.entries
  sublist : t'.cache.entries.Sublist t.cache.entries
  evicted : ∀ cause, (run r.job t.outside).1 = .error cause →
    ∀ e, e ∈ t'.cache.entries ↔ e ∈ t.cache.entries ∧ e ≠ r.entry run s

theorem Request.Starts.ends {run : J → Fallible BackingError σ V} {s : Timed σ K J V}
    {r : Request K J} {id : Nat} (h : r.Starts run s id) (hs : s.Proper)
    (ho : (s.after run r.events).cache.Outstanding id) :
    r.Ends run s id (s.after run r.events) ((s.after run r.events).next run (.await id)) := by
  rcases (s.after run r.events).next_await run id with ⟨hn, -⟩ | ⟨f, hf, -, heq⟩
  · exact absurd ho hn
  obtain ⟨f', hf', -, hj, -⟩ := h.fetch
  obtain rfl : f = f' := Option.some.inj (hf.symm.trans hf')
  rw [heq, hj]
  refine ⟨?_, rfl, rfl, complete_config, fun i hi => ?_, fun v hv => ?_, complete_sublist ..,
    fun cause hc e => ?_⟩
  · simp [outcome?, Array.getElem?_modify, hf]
  · simp [Array.getElem?_modify, hi.symm]
  · rw [hv, complete_ok_entries]
  · rw [hc, mem_complete_error]
    refine and_congr_right fun he => not_congr ⟨fun hid => (h.entry_eq hs he hid).1, ?_⟩
    rintro rfl
    exact h.entry_fetch

/-- After every history no entry is for a fetch that failed. A wait changes something only if it
ends its fetch, and then it leaves all entries but, on failure, the one made by the only request
that started the fetch. Newer entries of the key stay. -/
theorem failure_evicts_itself (run : J → Fallible BackingError σ V) (config : CacheConfig)
    (outside : σ) (clock : Nat) (events : List (Event K J)) :
    let s := Timed.new config outside clock
    let t := s.after run events
    t.Unfailed ∧ ∀ id,
      let t' := t.next run (.await id)
      (¬t.cache.Outstanding id ∧ t' = t ∨
        t.cache.Outstanding id ∧ ∃ r : Request K J, r.events = events ∧ r.Starts run s id ∧
          (∀ r' : Request K J, r'.events = events → r'.Starts run s id → r' = r) ∧
          r.entry run s ∈ (s.after run (r.before ++ [.get r.key r.job])).cache.entries ∧
          r.Ends run s id t t') ∧
      ∀ e ∈ t.cache.entries, e.fetch ≠ id → e ∈ t'.cache.entries := by
  intro s t
  have hs : s.Proper := .new config outside clock
  refine ⟨Timed.Unfailed.after (.new config outside clock) hs events, fun id => ?_⟩
  intro t'
  rcases t.next_await run id with ⟨hn, heq⟩ | ⟨f, hf, ho, heq⟩
  · refine ⟨Or.inl ⟨hn, heq⟩, fun e he _ => ?_⟩
    rwa [show t' = t from heq]
  · obtain ⟨r, rfl, hr⟩ := Timed.exists_starts (Array.getElem?_eq_some_iff.mp hf).1
    have hout : t.cache.Outstanding id := ⟨f, hf, ho⟩
    refine ⟨Or.inr ⟨hout, r, rfl, hr, ?_, hr.entry_mem, hr.ends hs hout⟩, fun e he hid => ?_⟩
    · intro r' he h'
      exact h'.unique hr he
    · rw [show t' = _ from heq]
      exact mem_complete he hid

/-- An entry is removed while its fetch is under way, and the next request for the key makes a new
one. The older fetch fails and leaves it. -/
theorem failure_evicts_itself_replaced :
    let run : Bool → Fallible BackingError Unit Nat := fun up s =>
      (if up then .ok 5 else .error ⟨"down"⟩, s)
    let t := (Timed.new ⟨5, 16⟩ () 0).after run [.get 7 false, .remove 7, .get 7 true]
    let t' := t.next run (.await 0)
    (∀ e ∈ t.cache.entries, e.fetch ≠ 0 → e ∈ t'.cache.entries) ∧
      t.cache.entries.map CacheEntry.fetch = [1] ∧ t'.cache.entries.map CacheEntry.fetch = [1] ∧
      (t'.cache.outcome? 0).isSome = true := by
  intro run t t'
  exact ⟨((failure_evicts_itself run ⟨5, 16⟩ () 0 [.get 7 false, .remove 7, .get 7 true]).2 0).2,
    by decide +kernel, by decide +kernel, by decide +kernel⟩

end Cache

end ChainRead
