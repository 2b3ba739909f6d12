import HClient.Cookies.Counted

/-!
# The store with checked subtraction

The store's operations as a build that checks its arithmetic runs them: an operation that would
take from `held` more than is there stops, and so does an eviction loop that is not over when
the turns counted for it are.
-/
namespace HClient.Cookies

namespace Held.Checked

def takeAway (held n : Nat) : Option Nat := if n ≤ held then some (held - n) else none

def purgeExpired (h : Held) (now : SystemTime) : Option Held :=
  (takeAway h.held (h.entries.filter fun e => e.2.2.isExpired now).length).map fun held =>
    ⟨h.byDomain.retain (keepUnexpired now), held⟩

/-- `some none` where there is nothing to evict. -/
def evictLru (h : Held) (domain : Option Text) : Option (Option Held) :=
  let candidates := h.entries.filter fun e => domain.all fun want => e.1 = want
  match leastRecentlyUsed candidates with
  | none => some none
  | some (d, i, _) =>
      (takeAway h.held 1).map fun held => some (h.replace d ((h.under d).eraseIdx i) held)

def evictWhile (full : Held → Bool) (domain : Option Text) : Nat → Held → Option Held
  | 0, h => if full h ∧ (h.evictLru domain).isSome then none else some h
  | fuel + 1, h =>
      if full h then
        (evictLru h domain).bind fun evicted =>
          match evicted with
          | some h => evictWhile full domain fuel h
          | none => some h
      else some h

def makeRoom (capacity : Capacity) (domain : Text) (h : Held) : Option Held := do
  let h ← evictWhile (isDomainFull capacity domain) (some domain) h.entries.length h
  evictWhile (isFull capacity) none h.entries.length h

def remove (h : Held) (key : CookieKey) : Option Held :=
  match h.byDomain.lookup key.domain with
  | none => some h
  | some cookies =>
      let kept := cookies.filter fun c => CookieKey.of c ≠ key
      (takeAway h.held (cookies.length - kept.length)).map fun held =>
        h.replace key.domain kept held

def put (capacity : Capacity) (h : Held) (cookie : Cookie) (now : SystemTime) : Option Held := do
  let h ← purgeExpired h now
  let key := CookieKey.of cookie
  if cookie.isExpired now then remove h key
  else
    let slot := h.under key.domain
    match slot.findIdx? fun c => CookieKey.of c = key with
    | some i => some ⟨h.byDomain.insert key.domain (slot.set i cookie), h.held⟩
    | none => (makeRoom capacity key.domain h).map fun h => h.push cookie

theorem takeAway_of_le {held n : Nat} (enough : n ≤ held) : takeAway held n = some (held - n) :=
  if_pos enough

variable {h : Held}

theorem purgeExpired_eq (counted : h.Counted) (now : SystemTime) :
    purgeExpired h now = some (h.purgeExpired now) := by
  unfold purgeExpired
  rw [takeAway_of_le (counted.expired_le now)]
  rfl

theorem evictLru_eq (counted : h.Counted) (only : Option Text) :
    evictLru h only = some (h.evictLru only) := by
  unfold evictLru Held.evictLru
  simp only
  cases least : leastRecentlyUsed (h.entries.filter fun e => only.all fun want => e.1 = want) with
  | none => rfl
  | some victim =>
      have evicted : h.evictLru only =
          some (h.replace victim.1 ((h.under victim.1).eraseIdx victim.2.1) (h.held - 1)) := by
        simp [Held.evictLru, least]
      have taken := (counted.evictLru evicted).2
      have enough : 1 ≤ h.held := by omega
      simp only [takeAway_of_le enough, Option.map_some]

theorem evictWhile_eq (counted : h.Counted) (full : Held → Bool) (only : Option Text)
    {fuel : Nat} (enough : h.held ≤ fuel) :
    evictWhile full only fuel h = some (h.evictWhile full only fuel) := by
  induction fuel generalizing h with
  | zero =>
      have nothing : h.evictLru only = none := by
        cases evicted : h.evictLru only with
        | none => rfl
        | some h' =>
            have taken := (counted.evictLru evicted).2
            omega
      simp [evictWhile, Held.evictWhile, nothing]
  | succ fuel ih =>
      unfold evictWhile Held.evictWhile
      rw [evictLru_eq counted, Option.bind_some]
      split
      · cases evicted : h.evictLru only with
        | none => rfl
        | some h' =>
            have taken := (counted.evictLru evicted).2
            exact ih (counted.evictLru evicted).1 (by omega)
      · rfl

theorem makeRoom_eq (counted : h.Counted) (capacity : Capacity) (arriving : Text) :
    makeRoom capacity arriving h = some (h.makeRoom capacity arriving) := by
  have counts : ∀ {h : Held}, h.Counted → h.held ≤ h.entries.length := by
    intro h counted
    rw [entries_length, ← counted.held]
  have first := counted.evictWhile (isDomainFull capacity arriving) (some arriving)
    h.entries.length
  unfold makeRoom
  rw [evictWhile_eq counted _ _ (counts counted)]
  exact evictWhile_eq first _ _ (counts first)

theorem remove_eq (counted : h.Counted) (key : CookieKey) :
    remove h key = some (h.remove key) := by
  unfold remove Held.remove
  cases found : h.byDomain.lookup key.domain with
  | none => rfl
  | some cookies =>
      have enough := (Nat.sub_le cookies.length
        (cookies.filter fun c => CookieKey.of c ≠ key).length).trans (counted.found_le found)
      simp only [takeAway_of_le enough, Option.map_some]

theorem put_eq (counted : h.Counted) (capacity : Capacity) (cookie : Cookie) (now : SystemTime) :
    put capacity h cookie now = some (h.put capacity cookie now) := by
  have purged := counted.purgeExpired now
  unfold put Held.put
  rw [purgeExpired_eq counted]
  simp only [Option.bind_eq_bind, Option.bind_some]
  split
  · exact remove_eq purged _
  rw [makeRoom_eq purged]
  cases List.findIdx? (fun c => decide (CookieKey.of c = CookieKey.of cookie))
      ((h.purgeExpired now).under (CookieKey.of cookie).domain) with
  | some i => rfl
  | none => rfl

/-- What a call leaves of the store. -/
def call (capacity : Capacity) (h : Held) : StoreCall → Option Held
  | .put cookie now => put capacity h cookie now
  | .remove key => remove h key
  | .touch keys now => some (h.touch keys now)
  | .clear => some Held.new
  | .get _ | .all | .len | .nextSeq => some h

/-- The calls one after another. -/
def run (capacity : Capacity) (calls : List StoreCall) : Option Held :=
  calls.foldlM (call capacity) Held.new

end Held.Checked

/-- The store after the calls. -/
def MemoryStore.after (capacity : Capacity) (calls : List StoreCall) : Held :=
  (calls.foldl (fun s call => (MemoryStore.handle capacity call s).2) JarState.new).store

/-- What holds of the store between its calls. -/
structure Held.Sound (capacity : Capacity) (h : Held) : Prop where
  counted : h.Counted
  wellFormed : h.WellFormed
  bounded : h.Bounded capacity

namespace Held.Sound
variable {capacity : Capacity}

theorem new (capacity : Capacity) : Held.new.Sound capacity :=
  ⟨counted_new, wellFormed_new, fun _ => Nat.zero_le _, Nat.zero_le _⟩

theorem handle {s : JarState} (sound : s.store.Sound capacity)
    (oneCookie : 1 ≤ capacity.maxCookies) (onePerDomain : 1 ≤ capacity.maxPerDomain)
    (call : StoreCall) : (MemoryStore.handle capacity call s).2.store.Sound capacity := by
  obtain ⟨counted, wf, bounded⟩ := sound
  cases call with
  | put cookie now =>
      exact ⟨counted.put capacity cookie now, wellFormed_put wf,
        bounded.put counted oneCookie onePerDomain cookie now⟩
  | remove key => exact ⟨counted.remove key, wellFormed_remove wf key, bounded.remove key⟩
  | touch keys now =>
      exact ⟨counted.touch keys now, wellFormed_touch wf keys, bounded.touch wf keys now⟩
  | clear => exact new capacity
  | get domains => exact ⟨counted, wf, bounded⟩
  | all => exact ⟨counted, wf, bounded⟩
  | len => exact ⟨counted, wf, bounded⟩
  | nextSeq => exact ⟨counted, wf, bounded⟩

/-- A call from a sound store takes away only what is there. -/
theorem call_eq {s : JarState} (sound : s.store.Sound capacity) (call : StoreCall) :
    Checked.call capacity s.store call = some (MemoryStore.handle capacity call s).2.store := by
  cases call with
  | put cookie now => exact Checked.put_eq sound.counted capacity cookie now
  | remove key => exact Checked.remove_eq sound.counted key
  | _ => rfl

end Held.Sound

/-- After any calls of the store `held` counts the cookies; each is under its own domain, no two
share a key, no domain is empty and both bounds are kept; and no decrement on the way was of
more than was held. -/
theorem memoryStore_sound (capacity : Capacity) (oneCookie : 1 ≤ capacity.maxCookies)
    (onePerDomain : 1 ≤ capacity.maxPerDomain) (calls : List StoreCall) :
    let h := MemoryStore.after capacity calls
    h.held = (h.byDomain.entries.map fun e => e.2.length).sum ∧
      (∀ e ∈ h.byDomain.entries, e.2 ≠ []) ∧
      (∀ e ∈ h.byDomain.entries, ∀ c ∈ e.2, c.domain = e.1) ∧
      (h.entries.map fun e => CookieKey.of e.2.2).Nodup ∧
      (∀ e ∈ h.byDomain.entries, e.2.length ≤ capacity.maxPerDomain) ∧
      h.held ≤ capacity.maxCookies ∧
      Held.Checked.run capacity calls = some h := by
  have run : ∀ (calls : List StoreCall) (s : JarState), s.store.Sound capacity →
      let h := (calls.foldl (fun s call => (MemoryStore.handle capacity call s).2) s).store
      h.Sound capacity ∧ calls.foldlM (Held.Checked.call capacity) s.store = some h := by
    intro calls
    induction calls with
    | nil => exact fun s sound => ⟨sound, rfl⟩
    | cons call calls ih =>
        intro s sound
        rw [List.foldlM_cons, sound.call_eq call]
        exact ih _ (sound.handle oneCookie onePerDomain call)
  obtain ⟨⟨counted, wf, bounded⟩, checked⟩ := run calls JarState.new (Held.Sound.new capacity)
  have there : ∀ e ∈ (MemoryStore.after capacity calls).byDomain.entries,
      (MemoryStore.after capacity calls).byDomain.lookup e.1 = some e.2 ∧
        (MemoryStore.after capacity calls).under e.1 = e.2 := by
    intro e member
    have found := (Table.mem_entries_iff _).mp member
    exact ⟨found, by simp [Held.under, found]⟩
  refine ⟨counted.held, fun e member gone => ?_, fun e member c inList => ?_, wf.nodup_entries,
    fun e member => ?_, bounded.total, checked⟩
  · exact counted.nonempty e.1 (gone ▸ (there e member).1)
  · exact wf.domains e.1 c ((there e member).2.symm ▸ inList)
  · exact (there e member).2 ▸ bounded.perDomain e.1

/-- A session cookie that its host set at the epoch. -/
def sessionCookie (name domain : String) (seq : Nat) : Cookie :=
  ⟨name.toList, [], domain.toList, ['/'], none, .unixEpoch, .unixEpoch, seq, true, false, false,
    false, none⟩

/-- One cookie of room for two. -/
theorem memoryStore_sound_evicting :
    let h := MemoryStore.after ⟨1, 1⟩ [.put (sessionCookie "a" "com" 0) .unixEpoch,
      .put (sessionCookie "b" "com" 1) .unixEpoch]
    h.under "com".toList = [sessionCookie "b" "com" 1] ∧ h.held ≤ 1 :=
  ⟨by decide +kernel, (memoryStore_sound ⟨1, 1⟩ (Nat.le_refl 1) (Nat.le_refl 1) _).2.2.2.2.2.1⟩

end HClient.Cookies
