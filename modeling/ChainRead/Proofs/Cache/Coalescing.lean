import ChainRead.Proofs.Cache.History
import Mathlib.Data.Finset.Card

/-! # Sharing outstanding fetches

In a cache that has room for every key that is requested, and from which nothing is removed, an
entry stays until it expires or its fetch fails. The time to live counts from the request that makes
the entry, also while the fetch is under way: a fetch that takes longer is not shared any more, and
the next request for its key starts another one beside it.
-/

namespace ChainRead

namespace Cache

variable {σ K J V : Type}

namespace Event

def requested : Event K J → Option K
  | .get key _ => some key
  | _ => none

end Event

variable [DecidableEq K]

def keysOf (events : List (Event K J)) : Finset K := (events.filterMap Event.requested).toFinset

theorem mem_keysOf {events : List (Event K J)} {key : K} :
    key ∈ keysOf events ↔ ∃ job, .get key job ∈ events := by
  rw [keysOf, List.mem_toFinset, List.mem_filterMap]
  constructor
  · rintro ⟨_ | _, he, hk⟩ <;> cases hk
    exact ⟨_, he⟩
  · rintro ⟨job, he⟩
    exact ⟨_, he, rfl⟩

/-- The cache has room for every key that is requested, and nothing is removed from it. -/
structure Roomy (config : CacheConfig) (events : List (Event K J)) : Prop where
  room : (keysOf events).card < config.maxCached
  kept : ∀ key, .remove key ∉ events
  uncleared : .clear ∉ events

theorem Roomy.before {config : CacheConfig} {events rest : List (Event K J)}
    (h : Roomy config (events ++ rest)) : Roomy config events where
  room := by
    refine Nat.lt_of_le_of_lt (Finset.card_le_card fun key hk => ?_) h.room
    obtain ⟨job, he⟩ := mem_keysOf.mp hk
    exact mem_keysOf.mpr ⟨job, List.mem_append_left _ he⟩
  kept key he := h.kept key (List.mem_append_left _ he)
  uncleared he := h.uncleared (List.mem_append_left _ he)

section Entries

variable {run : J → Fallible BackingError σ V} {config : CacheConfig} {outside : σ} {clock : Nat}
  {events : List (Event K J)}

theorem Timed.length_entries_le :
    ((new config outside clock).after run events).cache.entries.length ≤ (keysOf events).card := by
  have hs : (new config outside clock : Timed σ K J V).Proper := .new config outside clock
  have hp := hs.after run events
  rw [← List.length_map CacheEntry.key, ← List.toFinset_card_of_nodup hp.keys]
  refine Finset.card_le_card fun key hk => ?_
  obtain ⟨e, he, rfl⟩ := List.mem_map.mp (List.mem_toFinset.mp hk)
  obtain ⟨r, rfl, hr⟩ := exists_starts (hp.fetches e he)
  obtain ⟨rfl, -, -⟩ := hr.entry_eq hs he rfl
  exact mem_keysOf.mpr ⟨r.job, by simp [Request.events, Request.entry, entryAt]⟩

end Entries

namespace Timed.Proper

variable {run : J → Fallible BackingError σ V} {t : Timed σ K J V} (h : t.Proper)
  {e : CacheEntry K} (he : e ∈ t.cache.entries)
include h he

theorem find? : t.cache.find? e.key = some e := by
  rcases hf : t.cache.find? e.key with _ | f
  · have hn := List.find?_eq_none.mp hf e he
    simp at hn
  · obtain ⟨hm, hk⟩ := find?_some hf
    exact congrArg some (List.inj_on_of_nodup_map h.keys hm he hk)

theorem get_live (hl : t.clock < e.expires) (job : J) :
    t.cache.get t.clock e.key job = (e.fetch, t.cache) := by
  simp only [Cache.get, h.find? he, if_pos hl]

end Timed.Proper

/-- An entry stays if its fetch is still under way and it has not expired, unless it has to make
room or is removed. -/
theorem Timed.Effect.mem {run : J → Fallible BackingError σ V} {t : Timed σ K J V}
    {event : Event K J} {c : Cache K J V} (h : t.Effect run event c) (hp : t.Proper)
    {e : CacheEntry K} (he : e ∈ t.cache.entries)
    (hroom : t.cache.entries.length < t.cache.config.maxCached) (ho : c.Outstanding e.fetch)
    (hl : t.clock < e.expires) (hk : event ≠ .remove e.key) (hc : event ≠ .clear) :
    e ∈ c.entries := by
  cases h with
  | nothing => exact he
  | start hx =>
    have hm : t.cache.makeRoom t.clock = t.cache.entries := if_pos hroom
    rw [mem_start_entries, hm]
    refine Or.inr ⟨he, ?_⟩
    rintro rfl
    exact Nat.not_le_of_lt hl (hx e (hp.find? he))
  | finish =>
    refine mem_complete he ?_
    rintro rfl
    exact not_outstanding_complete ho
  | remove key =>
    have hk : e.key ≠ key := fun hk' => hk (congrArg Event.remove hk'.symm)
    exact List.mem_filter.mpr ⟨he, by simpa using hk⟩
  | clear => exact absurd rfl hc

theorem Request.Starts.mem_of_outstanding {run : J → Fallible BackingError σ V}
    {config : CacheConfig} {outside : σ} {clock : Nat} {r : Request K J} {id : Nat}
    (h : r.Starts run (.new config outside clock) id) (hr : Roomy config r.events)
    (ho : ((Timed.new config outside clock).after run r.events).cache.Outstanding id)
    (hl : ((Timed.new config outside clock).after run r.events).clock <
      (r.entry run (.new config outside clock)).expires) :
    r.entry run (.new config outside clock) ∈
      ((Timed.new config outside clock).after run r.events).cache.entries := by
  induction r using since_induction with
  | made before key job => exact h.entry_mem
  | later r event ih =>
    have hi := h.earlier
    have hp := (Timed.Proper.new config outside clock).after run r.events
    rw [events_later] at hr
    rw [after_later] at ho hl ⊢
    have effect := Timed.next_effect run ((Timed.new config outside clock).after run r.events) event
    have hl := Nat.lt_of_le_of_lt Timed.clock_le_next hl
    have he := ih hi hr.before (effect.outstanding hi.lt_size ho) hl
    show r.entry run _ ∈ _
    refine effect.mem hp he ?_ (hi.entry_fetch ▸ ho) hl ?_ ?_
    · rw [Timed.after_config]
      exact Nat.lt_of_le_of_lt Timed.length_entries_le hr.before.room
    · rintro rfl
      exact hr.kept _ (List.mem_append_right _ List.mem_cons_self)
    · rintro rfl
      exact hr.uncleared (List.mem_append_right _ List.mem_cons_self)

section Requests

variable {run : J → Fallible BackingError σ V} {config : CacheConfig} {outside : σ} {clock : Nat}
  {r : Request K J} {id : Nat} (h : r.Starts run (.new config outside clock) id)
include h

theorem Request.Starts.get_shared (hr : Roomy config r.events)
    (ho : ((Timed.new config outside clock).after run r.events).cache.Outstanding id)
    (hl : ((Timed.new config outside clock).after run r.events).clock <
      (r.entry run (.new config outside clock)).expires) (job : J) :
    let t := (Timed.new config outside clock).after run r.events
    t.cache.get t.clock r.key job = (id, t.cache) := by
  have hs : (Timed.new config outside clock : Timed σ K J V).Proper := .new config outside clock
  have hg := (hs.after run r.events).get_live (h.mem_of_outstanding hr ho hl) hl job
  rw [h.entry_fetch] at hg
  exact hg

theorem Request.Starts.get_expired
    (hl : (r.entry run (.new config outside clock)).expires ≤
      ((Timed.new config outside clock).after run r.events).clock) (job : J) :
    let t := (Timed.new config outside clock).after run r.events
    (t.cache.get t.clock r.key job).1 ≠ id := by
  intro t
  rcases t.cache.get_cases t.clock r.key job with ⟨e, he, -, hl', heq⟩ | ⟨-, heq⟩ <;> rw [heq]
  · intro hid
    rw [(h.entry_eq (.new config outside clock) he hid).1] at hl'
    exact Nat.not_le_of_lt hl' hl
  · exact Nat.ne_of_gt h.lt_size

end Requests

/-- Without removals and with room for all keys, a request shares an outstanding fetch for its key
if and only if less than the time to live went by since the request that started it. Outstanding
fetches for one key were hence started at least the time to live apart. -/
theorem coalesces_until_expiry (run : J → Fallible BackingError σ V) (config : CacheConfig)
    (outside : σ) (clock : Nat) {events : List (Event K J)} (hr : Roomy config events) :
    let s := Timed.new config outside clock
    let t := s.after run events
    ∀ (r : Request K J) (id : Nat), r.events = events → r.Starts run s id →
      t.cache.Outstanding id →
      (∀ job, if t.clock < (r.arrival run s).clock + config.ttl then
          t.cache.get t.clock r.key job = (id, t.cache)
        else (t.cache.get t.clock r.key job).1 ≠ id) ∧
      ∀ (r' : Request K J) (id' : Nat), r'.events = events → r'.Starts run s id' →
        t.cache.Outstanding id' → r'.key = r.key → id < id' →
          (r.arrival run s).clock + config.ttl ≤ (r'.arrival run s).clock := by
  intro s t r id hev h ho
  have hx (r : Request K J) :
      (r.entry run s).expires = (r.arrival run s).clock + config.ttl := by
    simp [Request.entry, entryAt, Request.arrival, s, Timed.new]
  refine ⟨fun job => ?_, ?_⟩
  · subst hev
    split
    · next hl => exact h.get_shared hr ho (hx r ▸ hl) job
    · next hl => exact h.get_expired (hx r ▸ Nat.le_of_not_lt hl) job
  · rintro r' id' rfl h' - hk hid
    obtain ⟨mid, hb⟩ := h.before_of_lt h' hev hid
    let r₀ : Request K J := { r with since := mid }
    have h₀ : r₀.Starts run s id := ⟨h.number, h.started⟩
    have he₀ : r₀.events = r'.before := hb.symm
    have ho₀ : (s.after run r₀.events).cache.Outstanding id := by
      refine Timed.outstanding_of_after h₀.lt_size (?_ : ((s.after run r₀.events).after run
        (.get r'.key r'.job :: r'.since)).cache.Outstanding id)
      rwa [he₀, ← Timed.after_append]
    -- the first fetch was outstanding when the second one was requested, and would be shared
    refine Nat.le_of_not_lt fun hl => ?_
    have hl : (s.after run r₀.events).clock < (r₀.entry run s).expires := by
      rw [hx r₀, he₀]
      exact hl
    have hg := h₀.get_shared (he₀ ▸ hr.before) ho₀ hl r'.job
    rw [he₀, ← show r'.key = r₀.key from hk] at hg
    have hn : (r'.arrival run s).cache.fetches.size = id :=
      congrArg Prod.fst (h'.started.symm.trans hg)
    exact Nat.ne_of_lt hid (hn.symm.trans h'.number)

/-- A request in the last millisecond of an entry shares its fetch. -/
theorem coalesces_until_expiry_last :
    let run : Nat → Fallible BackingError Unit Nat := fun job s => (.ok job, s)
    let events : List (Event Nat Nat) := [.get 7 1, .advance 4]
    let t := (Timed.new ⟨5, 16⟩ () 0).after run events
    Roomy ⟨5, 16⟩ events ∧ t.cache.Outstanding 0 ∧ (t.cache.get t.clock 7 2).1 = 0 := by
  intro run events t
  have hr : Roomy ⟨5, 16⟩ events := ⟨by decide, by simp [events], by simp [events]⟩
  have ho : t.cache.Outstanding 0 := ⟨⟨7, 1, none⟩, rfl, rfl⟩
  have hg := (coalesces_until_expiry run ⟨5, 16⟩ () 0 hr ⟨[], 7, 1, [.advance 4]⟩ 0 rfl ⟨rfl, rfl⟩
    ho).1 2
  rw [if_pos (by decide)] at hg
  exact ⟨hr, ho, congrArg Prod.fst hg⟩

/-- A fetch that takes as long as the time to live is not shared: a request starts another one, and
two fetches for one key are outstanding, although there is room and nothing was removed. -/
theorem outstanding_twice :
    let run : Nat → Fallible BackingError Unit Nat := fun job s => (.ok job, s)
    let events : List (Event Nat Nat) := [.get 7 1, .advance 5]
    let t := (Timed.new ⟨5, 16⟩ () 0).after run events
    let t' := t.next run (.get 7 2)
    Roomy ⟨5, 16⟩ (events ++ [.get 7 2]) ∧ t.cache.Outstanding 0 ∧
      (t.cache.get t.clock 7 2).1 = 1 ∧ t'.cache.Outstanding 0 ∧ t'.cache.Outstanding 1 ∧
      (t'.cache.fetches.map Fetch.key).toList = [7, 7] :=
  ⟨⟨by decide, by simp, by simp⟩, ⟨⟨7, 1, none⟩, rfl, rfl⟩, rfl, ⟨⟨7, 1, none⟩, rfl, rfl⟩,
    ⟨⟨7, 2, none⟩, rfl, rfl⟩, by decide +kernel⟩

end Cache

end ChainRead
