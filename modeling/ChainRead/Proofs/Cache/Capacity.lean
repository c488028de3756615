import ChainRead.Proofs.Cache.Coalescing

/-! # How much a cache holds

A cache never holds more entries than it is configured for, or one if that is none. Only a request
that starts a fetch takes entries of other keys away, and only if there is no room: the expired ones
go, and if there is still no room the oldest live one goes too.
-/

namespace ChainRead

namespace Cache

variable {σ K J V : Type}

section Oldest

variable {entries : List (CacheEntry K)} {e : CacheEntry K}

theorem oldest?_eq_none : oldest? entries = none ↔ entries = [] := by
  cases entries with
  | nil => exact iff_of_true rfl rfl
  | cons e entries =>
    refine iff_of_false ?_ (List.cons_ne_nil e entries)
    rw [oldest?]
    rcases oldest? entries with _ | f
    · exact Option.some_ne_none e
    · dsimp only
      split <;> exact Option.some_ne_none _

theorem oldest?_some (h : oldest? entries = some e) :
    e ∈ entries ∧ ∀ f ∈ entries, e.inserted ≤ f.inserted := by
  induction entries generalizing e with
  | nil => cases h
  | cons first entries ih =>
    rw [oldest?] at h
    rcases ho : oldest? entries with _ | g <;> rw [ho] at h
    · cases h
      rw [oldest?_eq_none.mp ho]
      simp
    · obtain ⟨hm, hl⟩ := ih ho
      rw [List.forall_mem_cons]
      dsimp only at h
      split at h <;> cases h
      · next hlt => exact ⟨List.mem_cons_of_mem _ hm, Nat.le_of_lt hlt, hl⟩
      · next hle =>
        have hle := Nat.le_of_not_lt hle
        exact ⟨List.mem_cons_self, Nat.le_refl _, fun f hf => Nat.le_trans hle (hl f hf)⟩

end Oldest

variable [DecidableEq K]

def others (c : Cache K J V) (key : K) : List (CacheEntry K) :=
  c.entries.filter fun e => e.key != key

def liveOthers (c : Cache K J V) (now : Nat) (key : K) : List (CacheEntry K) :=
  (c.others key).filter fun e => now < e.expires

/-- What a request for a key keeps of the entries of the other keys when it makes its own. -/
structure Spares (c : Cache K J V) (now : Nat) (key : K) (kept : List (CacheEntry K)) : Prop where
  /-- With room for one more, all of them. -/
  all : c.size < c.config.maxCached → kept = c.others key
  /-- Else those that have not expired, if they leave room. -/
  live : c.config.maxCached ≤ c.size → (c.liveOthers now key).length < c.config.maxCached →
    kept = c.liveOthers now key
  /-- Else all of these but an oldest one, if there is any. -/
  newer : c.config.maxCached ≤ c.size → c.config.maxCached ≤ (c.liveOthers now key).length →
    c.liveOthers now key = [] ∧ kept = [] ∨
      ∃ oldest, (oldest :: kept).Perm (c.liveOthers now key) ∧
        ∀ e ∈ c.liveOthers now key, oldest.inserted ≤ e.inserted

variable {c : Cache K J V} {now : Nat} {key : K}

theorem makeRoom_of_lt (h : c.size < c.config.maxCached) : c.makeRoom now = c.entries :=
  if_pos h

theorem cons_filter_perm {entries : List (CacheEntry K)} {e : CacheEntry K}
    (hk : (entries.map CacheEntry.key).Nodup) (he : e ∈ entries) :
    (e :: entries.filter fun f => f.key != e.key).Perm entries := by
  have hn : entries.Nodup := hk.of_map
  have hf : e ∉ entries.filter fun f => f.key != e.key := by simp
  refine (List.perm_ext_iff_of_nodup (List.nodup_cons.mpr ⟨hf, hn.filter _⟩) hn).mpr fun f => ?_
  rw [List.mem_cons, List.mem_filter, bne_iff_ne]
  constructor
  · rintro (rfl | ⟨hm, -⟩)
    · exact he
    · exact hm
  · intro hm
    by_cases hfe : f.key = e.key
    · exact Or.inl (List.inj_on_of_nodup_map hk hm he hfe)
    · exact Or.inr ⟨hm, hfe⟩

theorem Spares.length_lt {kept : List (CacheEntry K)} (h : c.Spares now key kept)
    (hc : c.size ≤ max c.config.maxCached 1) : kept.length < max c.config.maxCached 1 := by
  have live : (c.liveOthers now key).length ≤ c.size :=
    (List.filter_sublist.trans List.filter_sublist).length_le
  rcases Nat.lt_or_ge c.size c.config.maxCached with hs | hs
  · have others : (c.others key).length ≤ c.size := List.filter_sublist.length_le
    rw [h.all hs]
    omega
  rcases Nat.lt_or_ge (c.liveOthers now key).length c.config.maxCached with hl | hl
  · rw [h.live hs hl]
    omega
  rcases h.newer hs hl with ⟨-, rfl⟩ | ⟨oldest, hp, -⟩
  · exact Nat.lt_of_lt_of_le Nat.zero_lt_one (Nat.le_max_right _ _)
  · have hlen := hp.length_eq
    rw [List.length_cons] at hlen
    omega

namespace Timed

variable {run : J → Fallible BackingError σ V} {t : Timed σ K J V} {event : Event K J}

theorem Proper.filter_live (h : t.Proper)
    (hx : ∀ e, t.cache.find? key = some e → e.expires ≤ t.clock) :
    (t.cache.entries.filter fun e => t.clock < e.expires) = t.cache.liveOthers t.clock key := by
  rw [liveOthers, others, List.filter_filter]
  refine List.filter_congr fun e he => ?_
  by_cases hl : t.clock < e.expires
  · have hne : e.key ≠ key := by
      rintro rfl
      exact Nat.not_le_of_lt hl (hx e (h.find? he))
    simp [hl, hne]
  · simp [hl]

/-- Making room for an entry takes away what a request for its key does not spare. -/
theorem Proper.spares (h : t.Proper)
    (hx : ∀ e, t.cache.find? key = some e → e.expires ≤ t.clock) :
    t.cache.Spares t.clock key ((t.cache.makeRoom t.clock).filter fun e => e.key != key) := by
  have other : (t.cache.liveOthers t.clock key).filter (fun e => e.key != key) =
      t.cache.liveOthers t.clock key :=
    List.filter_eq_self.mpr fun e he => (List.mem_filter.mp (List.mem_filter.mp he).1).2
  have full (hs : t.cache.config.maxCached ≤ t.cache.size) :
      ¬t.cache.entries.length < t.cache.config.maxCached := Nat.not_lt_of_le hs
  constructor
  · intro hs
    rw [makeRoom_of_lt hs, others]
  · intro hs hl
    rw [makeRoom, if_neg (full hs)]
    dsimp only
    -- the key has no live entry, so the live ones are all for other keys
    rw [h.filter_live hx, if_pos hl, other]
  · intro hs hl
    rw [makeRoom, if_neg (full hs)]
    dsimp only
    rw [h.filter_live hx, if_neg (Nat.not_lt_of_le hl)]
    rcases ho : oldest? (t.cache.liveOthers t.clock key) with _ | oldest
    · have hn := oldest?_eq_none.mp ho
      exact Or.inl ⟨hn, by rw [hn]; rfl⟩
    · obtain ⟨hm, hmin⟩ := oldest?_some ho
      have hk := h.keys.sublist
        ((List.filter_sublist.trans List.filter_sublist).map CacheEntry.key :
          ((t.cache.liveOthers t.clock key).map _).Sublist _)
      refine Or.inr ⟨oldest, ?_, hmin⟩
      dsimp only
      rw [List.filter_comm, other]
      exact cons_filter_perm hk hm

theorem Effect.size_le_max {c : Cache K J V} (h : t.Effect run event c) (hp : t.Proper)
    (hc : t.cache.size ≤ max t.cache.config.maxCached 1) :
    c.size ≤ max t.cache.config.maxCached 1 := by
  cases h with
  | nothing => exact hc
  | start hx => exact (hp.spares hx).length_lt hc
  | finish => exact (t.cache.complete_sublist _ _).length_le.trans hc
  | remove => exact List.filter_sublist.length_le.trans hc
  | clear => exact Nat.zero_le _

theorem size_after_le {events : List (Event K J)} (hp : t.Proper)
    (hc : t.cache.size ≤ max t.cache.config.maxCached 1) :
    (t.after run events).cache.size ≤ max t.cache.config.maxCached 1 := by
  induction events generalizing t with
  | nil => exact hc
  | cons event events ih =>
    have effect := t.next_effect run event
    rw [← effect.config]
    refine ih (hp.next run event) ?_
    rw [effect.config]
    exact effect.size_le_max hp hc

end Timed

/-- A cache never holds more entries than it may, or one if that is none. A request for a key with a
live entry changes nothing. After any other request the key has an entry that has just been made,
and the other keys have theirs unless there was no room. -/
theorem capacity_kept (run : J → Fallible BackingError σ V) (config : CacheConfig) (outside : σ)
    (clock : Nat) (events : List (Event K J)) :
    let t := (Timed.new config outside clock).after run events
    t.cache.size ≤ max config.maxCached 1 ∧
    ∀ key job,
      (∀ e, t.cache.find? key = some e → t.clock < e.expires →
        t.cache.get t.clock key job = (e.fetch, t.cache)) ∧
      ((∀ e, t.cache.find? key = some e → e.expires ≤ t.clock) →
        let r := t.cache.get t.clock key job
        let made : CacheEntry K := ⟨key, r.1, t.clock, t.clock + config.ttl⟩
        r.1 = t.cache.fetches.size ∧ r.2.config = config ∧ r.2.find? key = some made ∧
        ∃ kept, r.2.entries = made :: kept ∧ t.cache.Spares t.clock key kept) := by
  intro t
  have hs : (Timed.new config outside clock : Timed σ K J V).Proper := .new config outside clock
  have hp : t.Proper := hs.after run events
  have hc : t.cache.config = config := Timed.after_config
  refine ⟨Timed.size_after_le hs (Nat.zero_le _), fun key job => ⟨fun e he hl => ?_, fun hx => ?_⟩⟩
  · obtain ⟨hm, rfl⟩ := find?_some he
    exact hp.get_live hm hl job
  · intro r made
    have hr : r = t.cache.start t.clock key job := by
      rcases t.cache.get_cases t.clock key job with ⟨e, hm, rfl, hl, -⟩ | ⟨-, heq⟩
      · exact absurd (hx e (hp.find? hm)) (Nat.not_le_of_lt hl)
      · exact heq
    have hmade : made = t.cache.entryAt t.clock key := by
      simp only [made, hr, entryAt, hc]
      rfl
    have hentries :
        r.2.entries = made :: (t.cache.makeRoom t.clock).filter fun e => e.key != key := by
      rw [hmade, hr, start_entries]
    refine ⟨by rw [hr]; rfl, by rw [hr]; exact hc, ?_, _, hentries, hp.spares hx⟩
    rw [find?, hentries]
    exact List.find?_cons_of_pos (by simp [made])

/-- In a cache for two entries, a request for a third key makes the oldest entry go. -/
theorem capacity_kept_full :
    let run : Nat → Fallible BackingError Unit Nat := fun job s => (.ok job, s)
    let events : List (Event Nat Nat) := [.get 1 10, .advance 3, .get 2 20, .advance 2]
    let t := (Timed.new ⟨10, 2⟩ () 0).after run events
    let r := t.cache.get t.clock 3 30
    t.cache.get t.clock 2 30 = (1, t.cache) ∧
      (∀ e, t.cache.find? 3 = some e → e.expires ≤ t.clock) ∧ r.2.size = 2 ∧
      r.2.find? 3 = some ⟨3, 2, 5, 15⟩ ∧ r.2.find? 1 = none := by
  intro run events t r
  have kept := (capacity_kept run ⟨10, 2⟩ () 0 events).2
  have hx : ∀ e, t.cache.find? 3 = some e → e.expires ≤ t.clock := nofun
  obtain ⟨-, -, hfind, -⟩ := (kept 3 30).2 hx
  exact ⟨(kept 2 30).1 ⟨2, 1, 3, 13⟩ rfl (by decide), hx, rfl, hfind, rfl⟩

end Cache

end ChainRead
