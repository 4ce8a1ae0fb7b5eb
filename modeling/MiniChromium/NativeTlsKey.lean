import MiniChromium.Custody
import MiniChromium.IntegralType
import Mathlib.Data.Finset.Insert

/-!
# The native key

Any number of threads run the set-up of the native key in `ConstructTlsVector`, one atomic
step at a time. `AllocTLS` succeeds and may return any key that is not allocated, also the
value that stands for no key.
-/
namespace MiniChromium.NativeTlsKey

open Runs Custody MiniChromium.Num

set_option linter.unusedSectionVars false

/-- `PlatformThreadLocalStorage::TLSKey`. -/
abbrev TLSKey := Num .uint32

/-- `static_cast<Atomic32>(key)`. -/
def toAtomic (key : TLSKey) : Num .int32 := staticCast .int32 key.val

/-- The conversion of an `Atomic32` to a key. -/
def toKey (value : Num .int32) : TLSKey := staticCast .uint32 value.val

@[simp]
theorem toKey_toAtomic (key : TLSKey) : toKey (toAtomic key) = key := by
  have h := staticCast_congr (T := .uint32) (staticCast_modEq .int32 key.val)
  rw [toKey, toAtomic, h, staticCast_self]

@[simp]
theorem toAtomic_toKey (value : Num .int32) : toAtomic (toKey value) = value := by
  have h := staticCast_congr (T := .int32) (staticCast_modEq .uint32 value.val)
  rw [toKey, toAtomic, h, staticCast_self]

/-- `NoBarrier_CompareAndSwap`: what it returns, and what is in memory then. -/
def noBarrierCompareAndSwap (value oldValue newValue : Num .int32) : Num .int32 × Num .int32 :=
  if value = oldValue then (oldValue, newValue) else (value, value)

/-- Where a thread stands in the set-up: before each atomic step, past it with the key that
the rest of `ConstructTlsVector` uses, or at the end of the process. -/
inductive Point
  | outside
  | load
  | alloc
  | allocAnother (tmp : TLSKey)
  | freeTmp (tmp key : TLSKey)
  | compareAndSwap (key : TLSKey)
  | free (key : TLSKey)
  | reload
  | passed (key : TLSKey)
  | checkFailed
  deriving DecidableEq

/-- The atomic steps: a call begins, a load of `g_native_tls_key`, `AllocTLS` with the key that
it returns, `FreeTLS`, and the compare-and-swap. -/
inductive Event
  | enter
  | load
  | alloc (key : TLSKey)
  | free (key : TLSKey)
  | compareAndSwap
  deriving DecidableEq

/-- `g_native_tls_key`, the keys that are allocated, and the threads. -/
structure System (T : Type*) where
  nativeTlsKey : Num .int32
  allocated : Finset TLSKey
  points : T → Point

/-- The thread is inside of the set-up. -/
def Point.inside : Point → Bool
  | outside | passed _ => false
  | _ => true

/-- The keys that a thread has allocated and neither freed nor published. -/
def Point.Holds : Point → TLSKey → Prop
  | allocAnother tmp, k => k = tmp
  | freeTmp tmp key, k => k = tmp ∨ k = key
  | compareAndSwap key, k | free key, k => k = key
  | _, _ => False

section Model

variable {T : Type*} [DecidableEq T] (outOfIndexes : TLSKey)

namespace System

def start : System T where
  nativeTlsKey := toAtomic outOfIndexes
  allocated := ∅
  points _ := .outside

def setPoint (s : System T) (t : T) (point : Point) : System T :=
  { s with points := Function.update s.points t point }

/-- A step of one thread. -/
def step (s : System T) (t : T) : Event → Option (System T)
  | .enter => if (s.points t).inside then none else some (s.setPoint t .load)
  | .load =>
    let key := toKey s.nativeTlsKey
    match s.points t with
    | .load => some (s.setPoint t (if key = outOfIndexes then .alloc else .passed key))
    | .reload => some (s.setPoint t (.passed key))
    | _ => none
  | .alloc key =>
    let s' := { s with allocated := insert key s.allocated }
    if key ∈ s.allocated then none
    else match s.points t with
    | .alloc =>
      some (s'.setPoint t (if key = outOfIndexes then .allocAnother key else .compareAndSwap key))
    | .allocAnother tmp =>
      some (s'.setPoint t (if key ≠ outOfIndexes then .freeTmp tmp key else .checkFailed))
    | _ => none
  | .free freed =>
    let s' := { s with allocated := s.allocated.erase freed }
    match s.points t with
    | .freeTmp tmp key => if freed = tmp then some (s'.setPoint t (.compareAndSwap key)) else none
    | .free key => if freed = key then some (s'.setPoint t .reload) else none
    | _ => none
  | .compareAndSwap =>
    match s.points t with
    | .compareAndSwap key =>
      let swap := noBarrierCompareAndSwap s.nativeTlsKey (toAtomic outOfIndexes) (toAtomic key)
      some { s.setPoint t (if outOfIndexes ≠ toKey swap.1 then .free key else .passed key) with
        nativeTlsKey := swap.2 }
    | _ => none

/-- The key is the one in `g_native_tls_key`. -/
def Published (s : System T) (key : TLSKey) : Prop :=
  key ≠ outOfIndexes ∧ key = toKey s.nativeTlsKey

/-- A key belongs to a thread that holds it, or to the process when it is published. -/
def Owns (s : System T) : Option T → TLSKey → Prop
  | none, k => s.Published outOfIndexes k
  | some t, k => (s.points t).Holds k

end System

/-- What is known of a thread where it stands, when `g_native_tls_key` holds `g`. -/
def Point.Valid (g : TLSKey) : Point → Prop
  | allocAnother tmp => tmp = outOfIndexes
  | freeTmp tmp key => tmp = outOfIndexes ∧ key ≠ outOfIndexes
  | compareAndSwap key => key ≠ outOfIndexes
  | free _ | reload => g ≠ outOfIndexes
  | passed key => g ≠ outOfIndexes ∧ key = g
  | checkFailed => False
  | outside | load | alloc => True

variable {outOfIndexes}

/-- Before a key is published, nothing that is known of a thread is about it. -/
theorem Point.Valid.publish {g : TLSKey} {point : Point}
    (h : point.Valid outOfIndexes outOfIndexes) : point.Valid outOfIndexes g := by
  cases point with
  | free | reload => exact absurd rfl h
  | passed key => exact absurd rfl h.1
  | _ => exact h

/-- Each allocated key has one owner, and each thread is where it may be. -/
structure Inv (outOfIndexes : TLSKey) (s : System T) (owner : TLSKey → Option (Option T)) :
    Prop where
  represents : Represents (s.Owns outOfIndexes) owner
  mem_allocated : ∀ key, key ∈ s.allocated ↔ owner key ≠ none
  valid : ∀ t, (s.points t).Valid outOfIndexes (toKey s.nativeTlsKey)

namespace Inv

variable {s s' : System T} {owner : TLSKey → Option (Option T)} {t : T} {key : TLSKey}
  {point : Point}

theorem start :
    Inv outOfIndexes (System.start outOfIndexes : System T) fun _ => none where
  represents o k := by
    cases o with
    | none => simp [System.Owns, System.Published, System.start]
    | some t => simp [System.Owns, System.start, Point.Holds]
  mem_allocated k := by simp [System.start]
  valid _ := trivial

theorem owner_eq (h : Inv outOfIndexes s owner) (ht : (s.points t).Holds key) :
    owner key = some (some t) := (h.represents (some t) key).mp ht

theorem valid_setPoint (h : Inv outOfIndexes s owner)
    (hvalid : point.Valid outOfIndexes (toKey s.nativeTlsKey)) (u : T) :
    ((s.setPoint t point).points u).Valid outOfIndexes (toKey s.nativeTlsKey) := by
  simp only [System.setPoint, Function.update_apply]
  split_ifs
  · exact hvalid
  · exact h.valid u

/-- A thread that keeps the keys that it holds. -/
theorem setPoint (h : Inv outOfIndexes s owner)
    (hholds : ∀ k, point.Holds k ↔ (s.points t).Holds k)
    (hvalid : point.Valid outOfIndexes (toKey s.nativeTlsKey)) :
    Inv outOfIndexes (s.setPoint t point) owner where
  represents o k := by
    rw [← h.represents o k]
    cases o with
    | none => rfl
    | some u => by_cases hu : u = t <;> simp [System.Owns, System.setPoint, hu, hholds]
  mem_allocated := h.mem_allocated
  valid := h.valid_setPoint hvalid

/-- One key changes hands, from or to a thread or the process. -/
theorem represents_update (h : Inv outOfIndexes s owner) {x : Option (Option T)}
    (hpoints : s'.points = Function.update s.points t point)
    (hholds : ∀ k, point.Holds k ↔ if k = key then x = some (some t) else (s.points t).Holds k)
    (hprocess : ∀ k, s'.Owns outOfIndexes none k ↔
      if k = key then x = some none else s.Owns outOfIndexes none k)
    (hothers : ∀ u, u ≠ t → ¬ (s.points u).Holds key ∧ x ≠ some (some u)) :
    Represents (s'.Owns outOfIndexes) (Function.update owner key x) := by
  refine h.represents.update fun o k => ?_
  cases o with
  | none => exact hprocess k
  | some u =>
    simp only [System.Owns, hpoints, Function.update_apply]
    by_cases hu : u = t
    · rw [hu, if_pos rfl, hholds]
    · rw [if_neg hu]
      by_cases hk : k = key
      · rw [if_pos hk, hk]
        exact iff_of_false (hothers u hu).1 (hothers u hu).2
      · rw [if_neg hk]

/-- What a thread holds, nobody else owns. -/
theorem not_owns (h : Inv outOfIndexes s owner) (hkey : (s.points t).Holds key)
    {o : Option T} (ho : o ≠ some t) : ¬ s.Owns outOfIndexes o key := fun howns =>
  ho (h.represents.unique howns hkey)

/-- A thread that comes to hold a key. -/
theorem alloc (h : Inv outOfIndexes s owner) (hkey : key ∉ s.allocated)
    (hholds : ∀ k, point.Holds k ↔ k = key ∨ (s.points t).Holds k)
    (hvalid : point.Valid outOfIndexes (toKey s.nativeTlsKey)) :
    Inv outOfIndexes ({ s with allocated := insert key s.allocated }.setPoint t point)
      (Function.update owner key (some (some t))) where
  represents := by
    have hnone : owner key = none := by simpa [h.mem_allocated] using hkey
    have hfree := h.represents.eq_none_iff.mp hnone
    refine h.represents_update rfl (fun k => ?_) (fun k => ?_) fun u hu => ⟨hfree (some u), ?_⟩
    · by_cases hk : k = key <;> simp [hk, hholds]
    · by_cases hk : k = key
      · rw [if_pos hk, hk]
        exact iff_of_false (hfree none) nofun
      · rw [if_neg hk]
        rfl
    · simpa using Ne.symm hu
  mem_allocated k := by
    by_cases hk : k = key <;> simp [System.setPoint, hk, h.mem_allocated]
  valid := h.valid_setPoint hvalid

/-- A thread that frees a key that it holds. -/
theorem free (h : Inv outOfIndexes s owner) (hkey : (s.points t).Holds key)
    (hholds : ∀ k, point.Holds k ↔ k ≠ key ∧ (s.points t).Holds k)
    (hvalid : point.Valid outOfIndexes (toKey s.nativeTlsKey)) :
    Inv outOfIndexes ({ s with allocated := s.allocated.erase key }.setPoint t point)
      (Function.update owner key none) where
  represents := by
    refine h.represents_update rfl (fun k => ?_) (fun k => ?_)
      fun u hu => ⟨h.not_owns (o := some u) hkey (by simpa using hu), nofun⟩
    · by_cases hk : k = key <;> simp [hk, hholds]
    · by_cases hk : k = key
      · rw [if_pos hk, hk]
        exact iff_of_false (h.not_owns (o := none) hkey nofun) nofun
      · rw [if_neg hk]
        rfl
  mem_allocated k := by
    by_cases hk : k = key <;> simp [System.setPoint, hk, h.mem_allocated]
  valid := h.valid_setPoint hvalid

/-- A thread that publishes the only key that it holds. -/
theorem publish (h : Inv outOfIndexes s owner) (hunset : toKey s.nativeTlsKey = outOfIndexes)
    (hkey : key ≠ outOfIndexes) (hholds : ∀ k, (s.points t).Holds k ↔ k = key) :
    Inv outOfIndexes { s.setPoint t (.passed key) with nativeTlsKey := toAtomic key }
      (Function.update owner key (some none)) where
  represents := by
    have ht : (s.points t).Holds key := (hholds key).mpr rfl
    refine h.represents_update rfl (fun k => ?_) (fun k => ?_)
      fun u hu => ⟨h.not_owns (o := some u) ht (by simpa using hu), nofun⟩
    · by_cases hk : k = key
      · simp [hk, Point.Holds]
      · rw [if_neg hk, hholds]
        exact iff_of_false id hk
    · by_cases hk : k = key
      · simp [System.Owns, System.Published, hk, hkey]
      · simp [System.Owns, System.Published, hk, hunset]
  mem_allocated k := by
    have hmem : key ∈ s.allocated := (h.mem_allocated key).mpr
      (by rw [h.owner_eq ((hholds key).mpr rfl)]; nofun)
    by_cases hk : k = key
    · simpa [hk, System.setPoint] using hmem
    · simp [System.setPoint, hk, h.mem_allocated]
  valid u := by
    rw [toKey_toAtomic]
    by_cases hu : u = t
    · simpa [System.setPoint, hu, Point.Valid] using hkey
    · simpa [System.setPoint, hu] using (hunset ▸ h.valid u).publish

end Inv

/-- The key that an event allocates. -/
def Event.allocates : Event → Option TLSKey
  | alloc key => some key
  | _ => none

/-- The key that an event frees. -/
def Event.frees : Event → Option TLSKey
  | free key => some key
  | _ => none

section Steps

variable {s s' : System T} {owner : TLSKey → Option (Option T)} {t : T} {key : TLSKey}

theorem inv_enter (h : s.step outOfIndexes t .enter = some s') (hs : Inv outOfIndexes s owner) :
    Inv outOfIndexes s' owner := by
  simp only [System.step] at h
  split_ifs at h with hinside
  cases h
  refine hs.setPoint (fun k => ?_) trivial
  cases hpoint : s.points t <;> simp_all [Point.inside, Point.Holds]

theorem inv_load (h : s.step outOfIndexes t .load = some s') (hs : Inv outOfIndexes s owner) :
    Inv outOfIndexes s' owner := by
  have hvalid := hs.valid t
  simp only [System.step] at h
  split at h
  · next hpoint =>
    cases h
    split_ifs with hkey
    · exact hs.setPoint (fun k => by simp [hpoint, Point.Holds]) trivial
    · exact hs.setPoint (fun k => by simp [hpoint, Point.Holds]) ⟨hkey, rfl⟩
  · next hpoint =>
    cases h
    rw [hpoint] at hvalid
    exact hs.setPoint (fun k => by simp [hpoint, Point.Holds]) ⟨hvalid, rfl⟩
  · cases h

/-- The second key is not the one that stands for no key: that one is allocated. -/
theorem inv_alloc (h : s.step outOfIndexes t (.alloc key) = some s')
    (hs : Inv outOfIndexes s owner) :
    owner key = none ∧ Inv outOfIndexes s' (Function.update owner key (some (some t))) := by
  have hvalid := hs.valid t
  simp only [System.step] at h
  split at h
  · cases h
  · next hkey =>
    refine ⟨by simpa [hs.mem_allocated] using hkey, ?_⟩
    split at h
    · next hpoint =>
      cases h
      split_ifs with hout
      · exact hs.alloc hkey (fun k => by simp [hpoint, Point.Holds]) hout
      · exact hs.alloc hkey (fun k => by simp [hpoint, Point.Holds]) hout
    · next tmp hpoint =>
      cases h
      rw [hpoint] at hvalid
      have htmp : tmp ∈ s.allocated := by
        rw [hs.mem_allocated, hs.owner_eq (t := t) (by rw [hpoint]; rfl)]
        nofun
      have hout : key ≠ outOfIndexes := by
        rintro rfl
        exact hkey (hvalid ▸ htmp)
      rw [if_pos hout]
      exact hs.alloc hkey (fun k => by simp [hpoint, Point.Holds, or_comm]) ⟨hvalid, hout⟩
    · cases h

/-- A thread frees a key that it holds: the one that stands for no key, or its own after
another thread has published one. -/
theorem inv_free (h : s.step outOfIndexes t (.free key) = some s')
    (hs : Inv outOfIndexes s owner) :
    owner key = some (some t) ∧ (toKey s.nativeTlsKey = outOfIndexes → key = outOfIndexes) ∧
      Inv outOfIndexes s' (Function.update owner key none) := by
  have hvalid := hs.valid t
  simp only [System.step] at h
  split at h
  · next tmp key' hpoint =>
    rw [hpoint] at hvalid
    split_ifs at h with hkey
    cases h
    subst hkey
    have hholds : (s.points t).Holds key := by rw [hpoint]; exact .inl rfl
    refine ⟨hs.owner_eq hholds, fun _ => hvalid.1, hs.free hholds (fun k => ?_) hvalid.2⟩
    have hne : key' ≠ key := hvalid.1 ▸ hvalid.2
    simp only [hpoint, Point.Holds]
    constructor
    · rintro rfl
      exact ⟨hne, .inr rfl⟩
    · rintro ⟨hk, rfl | rfl⟩
      · exact absurd rfl hk
      · rfl
  · next key' hpoint =>
    rw [hpoint] at hvalid
    split_ifs at h with hkey
    cases h
    subst hkey
    have hholds : (s.points t).Holds key := by rw [hpoint]; rfl
    refine ⟨hs.owner_eq hholds, fun hg => absurd hg hvalid, hs.free hholds (fun k => ?_) hvalid⟩
    simp [hpoint, Point.Holds]
  · cases h

/-- The first compare-and-swap publishes the key of its thread, every other changes nothing. -/
theorem inv_compareAndSwap (h : s.step outOfIndexes t .compareAndSwap = some s')
    (hs : Inv outOfIndexes s owner) :
    (toKey s.nativeTlsKey ≠ outOfIndexes ∧ s'.nativeTlsKey = s.nativeTlsKey ∧
      Inv outOfIndexes s' owner) ∨
    ∃ key, toKey s.nativeTlsKey = outOfIndexes ∧ owner key = some (some t) ∧
      key ≠ outOfIndexes ∧ s'.nativeTlsKey = toAtomic key ∧
      Inv outOfIndexes s' (Function.update owner key (some none)) := by
  have hvalid := hs.valid t
  simp only [System.step] at h
  split at h
  · next key hpoint =>
    rw [hpoint] at hvalid
    have hholds : ∀ k, (s.points t).Holds k ↔ k = key := fun k => by rw [hpoint]; rfl
    by_cases hg : s.nativeTlsKey = toAtomic outOfIndexes
    · have hswap : noBarrierCompareAndSwap s.nativeTlsKey (toAtomic outOfIndexes) (toAtomic key) =
          (toAtomic outOfIndexes, toAtomic key) := if_pos hg
      rw [hswap] at h
      simp only [toKey_toAtomic, ne_eq, not_true_eq_false, if_false] at h
      cases h
      have hunset : toKey s.nativeTlsKey = outOfIndexes := by rw [hg, toKey_toAtomic]
      exact .inr ⟨key, hunset, hs.owner_eq ((hholds key).mpr rfl), hvalid, rfl,
        hs.publish hunset hvalid hholds⟩
    · have hswap : noBarrierCompareAndSwap s.nativeTlsKey (toAtomic outOfIndexes) (toAtomic key) =
          (s.nativeTlsKey, s.nativeTlsKey) := if_neg hg
      have hset : toKey s.nativeTlsKey ≠ outOfIndexes := fun hkey =>
        hg (by rw [← hkey, toAtomic_toKey])
      rw [hswap] at h
      simp only [if_pos hset.symm] at h
      cases h
      exact .inl ⟨hset, rfl, hs.setPoint (fun k => by rw [hholds]; rfl) hset⟩
  · cases h

theorem nativeTlsKey_step {e : Event} (h : s.step outOfIndexes t e = some s')
    (he : e ≠ .compareAndSwap) : s'.nativeTlsKey = s.nativeTlsKey := by
  cases e with
  | compareAndSwap => exact absurd rfl he
  | enter =>
    simp only [System.step] at h
    split_ifs at h
    cases h
    rfl
  | load =>
    simp only [System.step] at h
    split at h <;> cases h <;> rfl
  | alloc key =>
    simp only [System.step] at h
    split at h
    · cases h
    · split at h <;> cases h <;> rfl
  | free key =>
    simp only [System.step] at h
    split at h
    · split_ifs at h
      cases h
      rfl
    · split_ifs at h
      cases h
      rfl
    · cases h

end Steps

/-- A step of any thread. -/
def Step (outOfIndexes : TLSKey) (s : System T) (e : T × Event) (s' : System T) : Prop :=
  s.step outOfIndexes e.1 e.2 = some s'

/-- The keys that were allocated, in order. -/
def allocated (events : List (T × Event)) : List TLSKey := events.filterMap (·.2.allocates)

/-- The keys that were freed, in order. -/
def freed (events : List (T × Event)) : List TLSKey := events.filterMap (·.2.frees)

section Runs

variable {s s' : System T} {events : List (T × Event)} {e : Event}
  {acts : List (Act (Option T) TLSKey Unit)} {owner : TLSKey → Option (Option T)} {t : T}

omit [DecidableEq T] in
@[simp]
theorem allocated_snoc :
    allocated (events ++ [(t, e)]) = allocated events ++ e.allocates.toList := by
  cases h : e.allocates <;> simp [allocated, h]

omit [DecidableEq T] in
@[simp]
theorem freed_snoc : freed (events ++ [(t, e)]) = freed events ++ e.frees.toList := by
  cases h : e.frees <;> simp [freed, h]

/-- The acts of custody that a run of the threads amounts to. -/
structure History (outOfIndexes : TLSKey) (events : List (T × Event)) (s : System T)
    (acts : List (Act (Option T) TLSKey Unit)) (owner : TLSKey → Option (Option T)) : Prop where
  reaches : Reaches acts owner
  inv : Inv outOfIndexes s owner
  acquired_eq : acquired acts = allocated events
  disposed_eq : (disposed acts).map Prod.snd = freed events
  freed_of_unset : toKey s.nativeTlsKey = outOfIndexes → ∀ key ∈ freed events, key = outOfIndexes
  not_freed : ∀ key, s.Published outOfIndexes key → key ∉ freed events

/-- A step that leaves every key with its owner. -/
theorem History.quiet (h : History outOfIndexes events s acts owner)
    (halloc : e.allocates = none) (hfree : e.frees = none)
    (hkey : s'.nativeTlsKey = s.nativeTlsKey) (hinv : Inv outOfIndexes s' owner) :
    History outOfIndexes (events ++ [(t, e)]) s' acts owner where
  reaches := h.reaches
  inv := hinv
  acquired_eq := by simp [h.acquired_eq, halloc]
  disposed_eq := by simp [h.disposed_eq, hfree]
  freed_of_unset := by simpa [hkey, hfree] using h.freed_of_unset
  not_freed := by simpa [System.Published, hkey, hfree] using h.not_freed

theorem History.alloc {key : TLSKey} (h : History outOfIndexes events s acts owner)
    (hstep : s.step outOfIndexes t (.alloc key) = some s') :
    History outOfIndexes (events ++ [(t, .alloc key)]) s' (acts ++ [.acquire (some t) key])
      (Function.update owner key (some (some t))) := by
  have hkey := nativeTlsKey_step hstep nofun
  obtain ⟨hnone, hinv⟩ := inv_alloc hstep h.inv
  exact
    { reaches := h.reaches.snoc (.acquire (some t) hnone)
      inv := hinv
      acquired_eq := by simp [h.acquired_eq, Act.acquires, Event.allocates]
      disposed_eq := by simp [h.disposed_eq, Act.disposes, Event.frees]
      freed_of_unset := by simpa [hkey, Event.frees] using h.freed_of_unset
      not_freed := by simpa [System.Published, hkey, Event.frees] using h.not_freed }

/-- A thread owns what it frees, so it is not the published key. -/
theorem History.free {key : TLSKey} (h : History outOfIndexes events s acts owner)
    (hstep : s.step outOfIndexes t (.free key) = some s') :
    History outOfIndexes (events ++ [(t, .free key)]) s' (acts ++ [.dispose (some t) () key])
      (Function.update owner key none) := by
  have hkey := nativeTlsKey_step hstep nofun
  obtain ⟨hsome, hunset, hinv⟩ := inv_free hstep h.inv
  have hpublished : ∀ k, s.Published outOfIndexes k → k ≠ key := fun k hk heq => by
    have hprocess := (h.inv.represents none k).mp hk
    rw [heq, hsome] at hprocess
    cases hprocess
  exact
    { reaches := h.reaches.snoc (.dispose () hsome)
      inv := hinv
      acquired_eq := by simp [h.acquired_eq, Act.acquires, Event.allocates]
      disposed_eq := by simp [h.disposed_eq, Act.disposes, Event.frees]
      freed_of_unset := fun hg k hk => by
        rw [hkey] at hg
        rcases List.mem_append.mp (freed_snoc ▸ hk) with hk | hk
        · exact h.freed_of_unset hg k hk
        · exact List.mem_singleton.mp hk ▸ hunset hg
      not_freed := fun k hk hmem => by
        rw [System.Published, hkey] at hk
        rcases List.mem_append.mp (freed_snoc ▸ hmem) with hmem | hmem
        · exact h.not_freed k hk hmem
        · exact hpublished k hk (List.mem_singleton.mp hmem) }

/-- The key that is published is not the one that stands for no key, which alone was freed. -/
theorem History.publish {key : TLSKey} (h : History outOfIndexes events s acts owner)
    (hunset : toKey s.nativeTlsKey = outOfIndexes) (hsome : owner key = some (some t))
    (hne : key ≠ outOfIndexes) (hkey : s'.nativeTlsKey = toAtomic key)
    (hinv : Inv outOfIndexes s' (Function.update owner key (some none))) :
    History outOfIndexes (events ++ [(t, .compareAndSwap)]) s'
      (acts ++ [.transfer (some t) none key]) (Function.update owner key (some none)) where
  reaches := h.reaches.snoc (.transfer none hsome)
  inv := hinv
  acquired_eq := by simp [h.acquired_eq, Act.acquires, Event.allocates]
  disposed_eq := by simp [h.disposed_eq, Act.disposes, Event.frees]
  freed_of_unset hg := absurd hg (by rwa [hkey, toKey_toAtomic])
  not_freed k hk hmem := by
    have hmem' : k ∈ freed events := by simpa [Event.frees] using hmem
    exact hk.1 (h.freed_of_unset hunset k hmem')

theorem History.step (h : History outOfIndexes events s acts owner)
    (hstep : s.step outOfIndexes t e = some s') :
    ∃ acts' owner', History outOfIndexes (events ++ [(t, e)]) s' acts' owner' := by
  cases e with
  | enter =>
    exact ⟨acts, owner, h.quiet rfl rfl (nativeTlsKey_step hstep nofun) (inv_enter hstep h.inv)⟩
  | load =>
    exact ⟨acts, owner, h.quiet rfl rfl (nativeTlsKey_step hstep nofun) (inv_load hstep h.inv)⟩
  | alloc key => exact ⟨_, _, h.alloc hstep⟩
  | free key => exact ⟨_, _, h.free hstep⟩
  | compareAndSwap =>
    obtain ⟨-, hkey, hinv⟩ | ⟨key, hunset, hsome, hne, hkey, hinv⟩ :=
      inv_compareAndSwap hstep h.inv
    · exact ⟨acts, owner, h.quiet rfl rfl hkey hinv⟩
    · exact ⟨_, _, h.publish hunset hsome hne hkey hinv⟩

/-- Every run of the threads is a run of acts of custody. -/
theorem exists_history (h : Run (Step outOfIndexes) (System.start outOfIndexes) events s) :
    ∃ acts owner, History outOfIndexes events s acts owner := by
  refine Run.history_induction (I := fun events s => ∃ acts owner,
    History outOfIndexes events s acts owner) ⟨[], _, reaches_nil, .start, rfl, rfl, ?_, ?_⟩ ?_ h
  · exact fun _ => nofun
  · exact fun _ _ => nofun
  · rintro events s ⟨t, e⟩ s' ⟨acts, owner, hs⟩ hstep
    exact hs.step hstep

/-- Only the first compare-and-swap changes `g_native_tls_key`. -/
theorem nativeTlsKey_of_set (hs : Inv outOfIndexes s owner)
    (h : s.step outOfIndexes t e = some s') (hset : toKey s.nativeTlsKey ≠ outOfIndexes) :
    s'.nativeTlsKey = s.nativeTlsKey := by
  by_cases he : e = .compareAndSwap
  · subst he
    obtain ⟨-, hkey, -⟩ | ⟨key, hunset, -⟩ := inv_compareAndSwap h hs
    · exact hkey
    · exact absurd hunset hset
  · exact nativeTlsKey_step h he

theorem nativeTlsKey_run {events' : List (T × Event)}
    (h : Run (Step outOfIndexes) (System.start outOfIndexes) events s)
    (h' : Run (Step outOfIndexes) s events' s') (hset : toKey s.nativeTlsKey ≠ outOfIndexes) :
    s'.nativeTlsKey = s.nativeTlsKey := by
  induction h' generalizing events with
  | nil s => rfl
  | @cons s s₁ s' e events' hstep _ ih =>
    obtain ⟨acts, owner, hs⟩ := exists_history h
    have hkey := nativeTlsKey_of_set hs.inv hstep hset
    rw [ih (h.append (.single hstep)) (hkey ▸ hset), hkey]

/-- The change of `g_native_tls_key` publishes an allocated key. -/
theorem published_of_change (hs : Inv outOfIndexes s owner)
    (h : s.step outOfIndexes t e = some s') (hkey : s'.nativeTlsKey ≠ s.nativeTlsKey) :
    toKey s.nativeTlsKey = outOfIndexes ∧
      ∃ key ∈ s.allocated, s'.Published outOfIndexes key := by
  by_cases he : e = .compareAndSwap
  · subst he
    obtain ⟨-, heq, -⟩ | ⟨key, hunset, hsome, hne, heq, -⟩ := inv_compareAndSwap h hs
    · exact absurd heq hkey
    · refine ⟨hunset, key, (hs.mem_allocated key).mpr (by rw [hsome]; nofun), hne, ?_⟩
      rw [heq, toKey_toAtomic]
  · exact absurd (nativeTlsKey_step h he) hkey

theorem History.count_allocated (h : History outOfIndexes events s acts owner) (key : TLSKey) :
    (allocated events).count key =
      (freed events).count key + if key ∈ s.allocated then 1 else 0 := by
  rw [← h.acquired_eq, ← h.disposed_eq, count_acquired h.reaches]
  by_cases hkey : owner key = none <;> simp [h.inv.mem_allocated, hkey]

/-- Outside of the set-up a thread holds no key. -/
theorem Inv.not_mem_allocated (hs : Inv outOfIndexes s owner)
    (houtside : ∀ t, (s.points t).inside = false) {key : TLSKey}
    (hkey : ¬ s.Published outOfIndexes key) : key ∉ s.allocated := by
  rw [hs.mem_allocated, not_not, hs.represents.eq_none_iff]
  intro o
  cases o with
  | none => exact hkey
  | some t =>
    have ht := houtside t
    change ¬ (s.points t).Holds key
    cases hpoint : s.points t <;> simp_all [Point.inside, Point.Holds]

end Runs

/-- `g_native_tls_key` changes once, to an allocated key, which is not freed and which every
thread past the set-up uses; the other keys are freed as often as they are allocated when no
thread is inside of the set-up. -/
theorem one_native_key {events : List (T × Event)} {s : System T}
    (h : Run (Step outOfIndexes) (System.start outOfIndexes) events s) :
    (∀ e s', Step outOfIndexes s e s' → s'.nativeTlsKey ≠ s.nativeTlsKey →
      toKey s.nativeTlsKey = outOfIndexes ∧
        ∃ key ∈ s.allocated, s'.Published outOfIndexes key) ∧
    (∀ key, s.Published outOfIndexes key → key ∈ s.allocated ∧ key ∉ freed events ∧
      ∀ events' s', Run (Step outOfIndexes) s events' s' →
        s'.nativeTlsKey = s.nativeTlsKey) ∧
    (∀ t key, s.points t = .passed key → s.Published outOfIndexes key) ∧
    (∀ t, s.points t ≠ .checkFailed) ∧
    (∀ key, (allocated events).count key =
      (freed events).count key + if key ∈ s.allocated then 1 else 0) ∧
    ((∀ t, (s.points t).inside = false) → ∀ key, ¬ s.Published outOfIndexes key →
      (allocated events).count key = (freed events).count key) := by
  obtain ⟨acts, owner, hs⟩ := exists_history h
  refine ⟨fun e s' hstep hkey => published_of_change hs.inv hstep hkey, fun key hkey => ?_,
    fun t key ht => ?_, fun t ht => ?_, hs.count_allocated, fun houtside key hkey => ?_⟩
  · refine ⟨?_, hs.not_freed key hkey, fun events' s' h' => ?_⟩
    · rw [hs.inv.mem_allocated, (hs.inv.represents none key).mp hkey]
      nofun
    · exact nativeTlsKey_run h h' (hkey.2 ▸ hkey.1)
  · have hvalid := hs.inv.valid t
    rw [ht] at hvalid
    exact ⟨hvalid.2 ▸ hvalid.1, hvalid.2⟩
  · have hvalid := hs.inv.valid t
    rw [ht] at hvalid
    exact hvalid
  · rw [hs.count_allocated, if_neg (hs.inv.not_mem_allocated houtside hkey), Nat.add_zero]

/-- Two threads race. The first one is given the value that stands for no key, allocates
another key, loses the compare-and-swap and frees its key. -/
def race (outOfIndexes winning losing : TLSKey) : List (Bool × Event) :=
  [(false, .enter), (false, .load), (true, .enter), (true, .load), (false, .alloc outOfIndexes),
    (true, .alloc winning), (false, .alloc losing), (true, .compareAndSwap),
    (false, .free outOfIndexes), (false, .compareAndSwap), (false, .free losing), (false, .load)]

/-- The loser of the race uses the key of the winner. -/
theorem one_native_key_race :
    let outOfIndexes : TLSKey := staticCast .uint32 0x7FFFFFFF
    let winning : TLSKey := staticCast .uint32 5
    ∃ s : System Bool, s.points false = .passed winning ∧ s.Published outOfIndexes winning ∧
      winning ∉ freed (race outOfIndexes winning (staticCast .uint32 6)) := by
  intro outOfIndexes winning
  have hrun : ((race outOfIndexes winning (staticCast .uint32 6)).foldlM
      (fun (s : System Bool) e => s.step outOfIndexes e.1 e.2) (.start outOfIndexes)).any
        (fun s => s.points false = .passed winning) = true := by decide
  obtain ⟨s, hs, hpoint⟩ := (Option.any_eq_true _ _).mp hrun
  have hkey := one_native_key (Run.of_foldlM hs)
  have hpassed := of_decide_eq_true hpoint
  have hpublished := hkey.2.2.1 false winning hpassed
  exact ⟨s, hpassed, hpublished, (hkey.2.1 winning hpublished).2.1⟩

end Model

end MiniChromium.NativeTlsKey
