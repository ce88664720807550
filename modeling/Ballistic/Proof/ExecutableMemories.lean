import Ballistic.ExecutableMemory
import Mathlib.Data.List.Perm.Subperm

/-!
# Buffers, descriptors and the name

However the calls of all threads of all processes are interleaved, whatever fails and whoever is killed,
no two buffers share an object (`buffers_isolated`). The descriptor of a buffer is never closed, so that a
process is given no more buffers in its life than it may have descriptors (`buffers_bounded`). The name
is only lost when a process is killed between `shm_open` and `shm_unlink`, and then for good
(`name_lost`); otherwise buffers can be had where there is room for their mappings (`buffer_possible`).
-/

namespace Ballistic

section Memories

variable {P T : Type} [DecidableEq P] [DecidableEq T] {owner : T → P} {limit : Nat}
  {mappable : List Nat → Nat → Prop} {s s' : SharedMemory P T}

namespace SharedMemory

omit [DecidableEq T] in
theorem change_use (s : SharedMemory P T) (p : P) (use : MemoryUse) (q : P) :
    (s.change p use).use q = if q = p then use else s.use q := Function.update_apply ..

omit [DecidableEq P] in
theorem move_point (s : SharedMemory P T) (t : T) (point : AllocatePoint) (t' : T) :
    (s.move t point).point t' = if t' = t then point else s.point t' := Function.update_apply ..

omit [DecidableEq P] in
theorem object_move_idle {t t' : T} {o : Nat} (h : ((s.move t .idle).point t').object = some o) :
    t' ≠ t ∧ (s.point t').object = some o := by
  rw [move_point] at h
  split at h
  · cases h
  · next hne => exact ⟨hne, h⟩

omit [DecidableEq P] in
theorem opened_move_idle {t t' : T} {size o : Nat} (h : (s.move t .idle).point t' = .opened size o) :
    s.point t' = .opened size o := by
  rw [move_point] at h
  split at h
  · cases h
  · exact h

omit [DecidableEq P] [DecidableEq T] in
theorem idle_object {t : T} (o : Nat) (ho : AllocatePoint.idle.object = some o) :
    (s.point t).object = some o := by
  cases ho

/-- The descriptors of all processes are of different objects, those of the buffers that a process was
given are open, and so are those of the buffers its threads are making. -/
structure Files (owner : T → P) (limit : Nat) (s : SharedMemory P T) : Prop where
  created : ∀ p, ∀ o ∈ (s.use p).descriptors, o < s.created
  nodup : ∀ p, (s.use p).descriptors.Nodup
  apart : ∀ p q o, o ∈ (s.use p).descriptors → o ∈ (s.use q).descriptors → p = q
  limited : ∀ p, (s.use p).descriptors.length ≤ limit
  given_open : ∀ p, ∀ o ∈ (s.use p).given, o ∈ (s.use p).descriptors
  given_nodup : ∀ p, (s.use p).given.Nodup
  making : ∀ t o, (s.point t).object = some o →
    o ∈ (s.use (owner t)).descriptors ∧ o ∉ (s.use (owner t)).given
  single : ∀ t t' o, (s.point t).object = some o → (s.point t').object = some o → t = t'
  named : ∀ t size o, s.point t = .opened size o → s.named = some o

omit [DecidableEq P] [DecidableEq T] in
theorem files_start : Files owner limit (start : SharedMemory P T) where
  created := by simp [start, MemoryUse.none]
  nodup := by simp [start, MemoryUse.none]
  apart := by simp [start, MemoryUse.none]
  limited := by simp [start, MemoryUse.none]
  given_open := by simp [start, MemoryUse.none]
  given_nodup := by simp [start, MemoryUse.none]
  making := by simp [start, AllocatePoint.object]
  single := by simp [start, AllocatePoint.object]
  named := by simp [start]

omit [DecidableEq P] in
/-- A thread goes on, or is done, without a call about descriptors. -/
theorem Files.move (h : Files owner limit s) {t : T} {point : AllocatePoint}
    (hobject : ∀ o, point.object = some o → (s.point t).object = some o)
    (hopened : ∀ size o, point ≠ .opened size o) : Files owner limit (s.move t point) where
  created := h.created
  nodup := h.nodup
  apart := h.apart
  limited := h.limited
  given_open := h.given_open
  given_nodup := h.given_nodup
  making := by
    intro t' o hmaking
    rw [move_point] at hmaking
    split at hmaking
    · next heq =>
        subst heq
        exact h.making t' o (hobject o hmaking)
    · exact h.making t' o hmaking
  single := by
    have hbefore : ∀ t' o, ((s.move t point).point t').object = some o →
        (s.point t').object = some o := by
      intro t' o hmaking
      rw [move_point] at hmaking
      split at hmaking
      · next heq =>
          subst heq
          exact hobject o hmaking
      · exact hmaking
    exact fun t' t'' o h' h'' => h.single t' t'' o (hbefore t' o h') (hbefore t'' o h'')
  named := by
    intro t' size o hpoint
    rw [move_point] at hpoint
    split at hpoint
    · exact absurd hpoint (hopened size o)
    · exact h.named t' size o hpoint

omit [DecidableEq T] in
/-- What a process does with its mappings and buffers, as long as it has the same descriptors and was given
the same buffers. -/
theorem Files.change (h : Files owner limit s) {p : P} {use : MemoryUse}
    (hdescriptors : use.descriptors = (s.use p).descriptors) (hgiven : use.given = (s.use p).given) :
    Files owner limit (s.change p use) := by
  have hsame : ∀ q, ((s.change p use).use q).descriptors = (s.use q).descriptors ∧
      ((s.change p use).use q).given = (s.use q).given := by
    intro q
    rw [change_use]
    split
    · next heq => rw [heq, hdescriptors, hgiven]; exact ⟨rfl, rfl⟩
    · exact ⟨rfl, rfl⟩
  constructor
  case created => intro q; rw [(hsame q).1]; exact h.created q
  case nodup => intro q; rw [(hsame q).1]; exact h.nodup q
  case apart => intro q q'; rw [(hsame q).1, (hsame q').1]; exact h.apart q q'
  case limited => intro q; rw [(hsame q).1]; exact h.limited q
  case given_open => intro q; rw [(hsame q).1, (hsame q).2]; exact h.given_open q
  case given_nodup => intro q; rw [(hsame q).2]; exact h.given_nodup q
  case making => intro t o; rw [(hsame _).1, (hsame _).2]; exact h.making t o
  case single => exact h.single
  case named => exact h.named

theorem shmOpen_use (s : SharedMemory P T) (p : P) (t : T) (size : Nat) (q : P) :
    (s.shmOpen p t size).use q =
      if q = p then { s.use p with descriptors := s.created :: (s.use p).descriptors }
      else s.use q := Function.update_apply ..

theorem shmOpen_point (s : SharedMemory P T) (p : P) (t : T) (size : Nat) (t' : T) :
    (s.shmOpen p t size).point t' = if t' = t then .opened size s.created else s.point t' :=
  Function.update_apply ..

theorem Files.shmOpen (h : Files owner limit s) {t : T} {size : Nat} (hname : s.named = none)
    (hroom : (s.use (owner t)).descriptors.length < limit) :
    Files owner limit (s.shmOpen (owner t) t size) := by
  have hnew : ∀ q, s.created ∉ (s.use q).descriptors :=
    fun q hmem => absurd (h.created q _ hmem) (Nat.lt_irrefl _)
  have hcreated : (s.shmOpen (owner t) t size).created = s.created + 1 := rfl
  have hnamed : (s.shmOpen (owner t) t size).named = some s.created := rfl
  constructor
  case created =>
    intro q o ho
    rw [hcreated]
    rw [shmOpen_use] at ho
    have := h.created q o
    have := h.created (owner t) o
    grind
  case nodup =>
    intro q
    rw [shmOpen_use]
    split
    · exact List.nodup_cons.mpr ⟨hnew (owner t), h.nodup (owner t)⟩
    · exact h.nodup q
  case apart =>
    intro q q' o ho ho'
    rw [shmOpen_use] at ho ho'
    have := h.apart q q' o
    have := h.apart (owner t) q' o
    have := h.apart q (owner t) o
    grind
  case limited =>
    intro q
    rw [shmOpen_use]
    split
    · exact hroom
    · exact h.limited q
  case given_open =>
    intro q o ho
    rw [shmOpen_use] at ho ⊢
    have := h.given_open q o
    grind
  case given_nodup =>
    intro q
    rw [shmOpen_use]
    have := h.given_nodup q
    grind
  case making =>
    intro t' o hmaking
    rw [shmOpen_point] at hmaking
    rw [shmOpen_use]
    have := h.making t' o
    have := h.given_open (owner t) o
    grind [AllocatePoint.object]
  case single =>
    intro t' t'' o h' h''
    rw [shmOpen_point] at h' h''
    have := h.making t' o
    have := h.making t'' o
    have := h.single t' t'' o
    grind [AllocatePoint.object]
  case named =>
    intro t' size' o hpoint
    rw [shmOpen_point] at hpoint
    rw [hnamed]
    have := h.named t' size' o
    grind

theorem closeTruncated_use (s : SharedMemory P T) (p : P) (t : T) (object : Nat) (q : P) :
    (s.closeTruncated p t object).use q =
      if q = p then { s.use p with descriptors := (s.use p).descriptors.erase object }
      else s.use q := Function.update_apply ..

theorem Files.closeTruncated (h : Files owner limit s) {t : T} {object : Nat}
    (hpoint : (s.point t).object = some object) :
    Files owner limit (s.closeTruncated (owner t) t object) := by
  obtain ⟨hopen, hungiven⟩ := h.making t object hpoint
  have hsub : ∀ q, List.Sublist ((s.closeTruncated (owner t) t object).use q).descriptors
      (s.use q).descriptors := by
    intro q
    rw [closeTruncated_use]
    split
    · next heq =>
        rw [heq]
        exact List.erase_sublist
    · exact List.Sublist.refl _
  have hgiven : ∀ q, ((s.closeTruncated (owner t) t object).use q).given = (s.use q).given := by
    intro q
    rw [closeTruncated_use]
    split
    · next heq => rw [heq]
    · rfl
  have hkept : ∀ q o, o ∈ (s.use q).descriptors → o ≠ object →
      o ∈ ((s.closeTruncated (owner t) t object).use q).descriptors := by
    intro q o ho hne
    rw [closeTruncated_use]
    split
    · next heq =>
        rw [heq] at ho
        exact (List.mem_erase_of_ne hne).mpr ho
    · exact ho
  constructor
  case created => exact fun q o ho => h.created q o ((hsub q).subset ho)
  case nodup => exact fun q => (h.nodup q).sublist (hsub q)
  case apart => exact fun q q' o ho ho' => h.apart q q' o ((hsub q).subset ho) ((hsub q').subset ho')
  case limited => exact fun q => Nat.le_trans (hsub q).length_le (h.limited q)
  case given_open =>
    intro q o ho
    rw [hgiven] at ho
    refine hkept q o (h.given_open q o ho) ?_
    rintro rfl
    have hq := h.apart q (owner t) o (h.given_open q o ho) hopen
    exact hungiven (hq ▸ ho)
  case given_nodup =>
    intro q
    rw [hgiven]
    exact h.given_nodup q
  case making =>
    intro t' o hmaking
    obtain ⟨hne, hbefore⟩ := object_move_idle hmaking
    obtain ⟨hopen', hungiven'⟩ := h.making t' o hbefore
    refine ⟨hkept _ o hopen' ?_, by rwa [hgiven]⟩
    rintro rfl
    exact hne (h.single t' t o hbefore hpoint)
  case single =>
    exact fun t' t'' o h' h'' => h.single t' t'' o (object_move_idle h').2 (object_move_idle h'').2
  case named => exact fun t' size o hpoint' => h.named t' size o (opened_move_idle hpoint')

/-- A thread returns with a buffer. -/
theorem Files.give (h : Files owner limit s) {t : T} {object : Nat}
    (hpoint : (s.point t).object = some object) {use : MemoryUse}
    (hdescriptors : use.descriptors = (s.use (owner t)).descriptors)
    (hgiven : use.given = object :: (s.use (owner t)).given) :
    Files owner limit ((s.move t .idle).change (owner t) use) := by
  obtain ⟨hopen, hungiven⟩ := h.making t object hpoint
  have hsame : ∀ q, (((s.move t .idle).change (owner t) use).use q).descriptors =
      (s.use q).descriptors := by
    intro q
    rw [change_use]
    split
    · next heq => rw [heq, hdescriptors]
    · rfl
  have hgave : ∀ q, (((s.move t .idle).change (owner t) use).use q).given =
      if q = owner t then object :: (s.use (owner t)).given else (s.use q).given := by
    intro q
    rw [change_use]
    split
    · exact hgiven
    · rfl
  constructor
  case created => exact fun q o ho => h.created q o (hsame q ▸ ho)
  case nodup => exact fun q => (hsame q).symm ▸ h.nodup q
  case apart => exact fun q q' o ho ho' => h.apart q q' o (hsame q ▸ ho) (hsame q' ▸ ho')
  case limited => exact fun q => (hsame q).symm ▸ h.limited q
  case given_open =>
    intro q o ho
    rw [hgave] at ho
    rw [hsame]
    split at ho
    · next heq =>
        rw [heq]
        rcases List.mem_cons.mp ho with rfl | ho
        · exact hopen
        · exact h.given_open _ o ho
    · exact h.given_open q o ho
  case given_nodup =>
    intro q
    rw [hgave]
    split
    · exact List.nodup_cons.mpr ⟨hungiven, h.given_nodup _⟩
    · exact h.given_nodup q
  case making =>
    intro t' o hmaking
    obtain ⟨hne, hbefore⟩ := object_move_idle hmaking
    obtain ⟨hopen', hungiven'⟩ := h.making t' o hbefore
    rw [hsame, hgave]
    refine ⟨hopen', ?_⟩
    split
    · next heq =>
        rw [heq] at hungiven'
        refine List.mem_cons.not.mpr (not_or.mpr ⟨?_, hungiven'⟩)
        rintro rfl
        exact hne (h.single t' t o hbefore hpoint)
    · exact hungiven'
  case single =>
    exact fun t' t'' o h' h'' => h.single t' t'' o (object_move_idle h').2 (object_move_idle h'').2
  case named => exact fun t' size o hpoint' => h.named t' size o (opened_move_idle hpoint')

omit [DecidableEq T] in
theorem die_use (s : SharedMemory P T) (owner : T → P) (p q : P) :
    (s.die owner p).use q = if q = p then .none else s.use q := Function.update_apply ..

omit [DecidableEq T] in
theorem die_point (s : SharedMemory P T) (owner : T → P) (p : P) (t : T) :
    (s.die owner p).point t = if owner t = p then .idle else s.point t := rfl

omit [DecidableEq T] in
theorem Files.die (h : Files owner limit s) (p : P) : Files owner limit (s.die owner p) := by
  have hcreated : (s.die owner p).created = s.created := rfl
  have hnamed : (s.die owner p).named = s.named := rfl
  constructor
  case created =>
    intro q o ho
    rw [die_use] at ho
    have := h.created q o
    grind [MemoryUse.none]
  case nodup =>
    intro q
    rw [die_use]
    have := h.nodup q
    grind [MemoryUse.none]
  case apart =>
    intro q q' o ho ho'
    rw [die_use] at ho ho'
    have := h.apart q q' o
    grind [MemoryUse.none]
  case limited =>
    intro q
    rw [die_use]
    have := h.limited q
    grind [MemoryUse.none]
  case given_open =>
    intro q o ho
    rw [die_use] at ho ⊢
    have := h.given_open q o
    grind [MemoryUse.none]
  case given_nodup =>
    intro q
    rw [die_use]
    have := h.given_nodup q
    grind [MemoryUse.none]
  case making =>
    intro t o hmaking
    rw [die_point] at hmaking
    rw [die_use]
    have := h.making t o
    grind [AllocatePoint.object]
  case single =>
    intro t t' o h' h''
    rw [die_point] at h' h''
    have := h.single t t' o
    grind [AllocatePoint.object]
  case named =>
    intro t size o hopened
    rw [die_point] at hopened
    have := h.named t size o
    grind

/-- **Every step keeps the files in order.** -/
theorem Files.step (h : Files owner limit s) (hstep : MemoryStep owner limit mappable s s') :
    Files owner limit s' := by
  cases hstep with
  | opens hpoint _ hname hroom => exact h.shmOpen hname hroom
  | @unlinks t size object hpoint =>
      have hmoved : Files owner limit (s.move t (.unlinked size object)) := by
        refine h.move (fun o ho => ?_) (fun _ _ hopened => by cases hopened)
        rw [hpoint]
        exact ho
      refine ⟨hmoved.created, hmoved.nodup, hmoved.apart, hmoved.limited, hmoved.given_open,
        hmoved.given_nodup, hmoved.making, hmoved.single, ?_⟩
      intro t' size' o hopened
      change (s.move t (.unlinked size object)).point t' = _ at hopened
      rw [move_point] at hopened
      split at hopened
      · cases hopened
      · next hne =>
          -- Both threads would have made the object that has the name.
          have hname := h.named t' size' o hopened
          rw [h.named t size object hpoint, Option.some.injEq] at hname
          subst hname
          refine absurd (h.single t' t object ?_ ?_) hne
          · rw [hopened]
            rfl
          · rw [hpoint]
            rfl
  | tooBig => exact h.move idle_object (fun _ _ hopened => by cases hopened)
  | truncateFails hpoint => exact h.closeTruncated (by rw [hpoint]; rfl)
  | @truncates t size object hpoint =>
      have hmoved : Files owner limit (s.move t (.truncated object)) := by
        refine h.move (fun o ho => ?_) (fun _ _ hopened => by cases hopened)
        rw [hpoint]
        exact ho
      exact ⟨hmoved.created, hmoved.nodup, hmoved.apart, hmoved.limited, hmoved.given_open,
        hmoved.given_nodup, hmoved.making, hmoved.single, hmoved.named⟩
  | mapsRw writable hpoint =>
      refine (h.move (fun o ho => ?_) (fun _ _ hopened => by cases hopened)).change rfl rfl
      rw [hpoint]
      exact ho
  | @mapsRx t object writable executable hpoint =>
      by_cases hboth : (writable && executable) = true
      · refine h.give (by rw [hpoint]; rfl) rfl ?_
        simp only [hboth, if_true]
      · refine (h.move idle_object (fun _ _ hopened => by cases hopened)).change rfl ?_
        exact if_neg hboth
  | frees => exact h.change rfl rfl
  | dies p => exact h.die p

/-- A process only has mappings of objects it has descriptors of, an object whose buffer is being made is
only mapped by the call that makes it, and both mappings of a buffer last until it is freed. -/
structure Mapped (owner : T → P) (s : SharedMemory P T) : Prop where
  opened : ∀ p o b, (o, b) ∈ (s.use p).mappings → o ∈ (s.use p).descriptors
  making : ∀ t o b, (s.point t).object = some o → (o, b) ∈ (s.use (owner t)).mappings →
    s.point t = .mappedRw o true
  writable : ∀ t o, s.point t = .mappedRw o true → (o, false) ∈ (s.use (owner t)).mappings
  kept : ∀ p, ∀ o ∈ (s.use p).buffers,
    o ∈ (s.use p).given ∧ (o, false) ∈ (s.use p).mappings ∧ (o, true) ∈ (s.use p).mappings
  nodup : ∀ p, (s.use p).buffers.Nodup

omit [DecidableEq P] [DecidableEq T] in
theorem mapped_start : Mapped owner (start : SharedMemory P T) where
  opened := by simp [start, MemoryUse.none]
  making := by simp [start, AllocatePoint.object]
  writable := by simp [start]
  kept := by simp [start, MemoryUse.none]
  nodup := by simp [start, MemoryUse.none]

omit [DecidableEq P] [DecidableEq T] in
/-- Before the first `mmap` has succeeded the object is not mapped. -/
theorem Mapped.unmapped (h : Mapped owner s) {t : T} {object : Nat}
    (hobject : (s.point t).object = some object) (hpoint : s.point t ≠ .mappedRw object true)
    (b : Bool) : (object, b) ∉ (s.use (owner t)).mappings :=
  fun hmapping => hpoint (h.making t object b hobject hmapping)

omit [DecidableEq P] in
/-- A thread goes on, or is done, without a mapping. -/
theorem Mapped.move (h : Mapped owner s) {t : T} {point : AllocatePoint}
    (hobject : ∀ o, point.object = some o →
      (s.point t).object = some o ∧ s.point t ≠ .mappedRw o true)
    (hwritable : ∀ o, point ≠ .mappedRw o true) : Mapped owner (s.move t point) where
  opened := h.opened
  making := by
    intro t' o b hmaking hmapping
    rw [move_point] at hmaking ⊢
    split at hmaking
    · next heq =>
        subst heq
        obtain ⟨hbefore, hne⟩ := hobject o hmaking
        exact absurd (h.making t' o b hbefore hmapping) hne
    · next hne =>
        rw [if_neg hne]
        exact h.making t' o b hmaking hmapping
  writable := by
    intro t' o hpoint
    rw [move_point] at hpoint
    split at hpoint
    · exact absurd hpoint (hwritable o)
    · exact h.writable t' o hpoint
  kept := h.kept
  nodup := h.nodup

theorem Mapped.shmOpen (h : Mapped owner s) (hfiles : Files owner limit s) {t : T} {size : Nat} :
    Mapped owner (s.shmOpen (owner t) t size) := by
  have hsame : ∀ q, ((s.shmOpen (owner t) t size).use q).mappings = (s.use q).mappings ∧
      ((s.shmOpen (owner t) t size).use q).buffers = (s.use q).buffers ∧
      ((s.shmOpen (owner t) t size).use q).given = (s.use q).given := by
    intro q
    rw [shmOpen_use]
    split
    · next heq => rw [heq]; exact ⟨rfl, rfl, rfl⟩
    · exact ⟨rfl, rfl, rfl⟩
  have hnew : ∀ q b, (s.created, b) ∉ (s.use q).mappings :=
    fun q b hmem => absurd (hfiles.created q _ (h.opened q _ b hmem)) (Nat.lt_irrefl _)
  constructor
  case opened =>
    intro q o b hmapping
    rw [(hsame _).1] at hmapping
    have := h.opened q o b hmapping
    rw [shmOpen_use]
    grind
  case making =>
    intro t' o b hmaking hmapping
    rw [(hsame _).1] at hmapping
    rw [shmOpen_point] at hmaking ⊢
    have := hnew (owner t') b
    have := h.making t' o b
    grind [AllocatePoint.object]
  case writable =>
    intro t' o hpoint
    rw [shmOpen_point] at hpoint
    rw [(hsame _).1]
    have := h.writable t' o
    grind
  case kept =>
    intro q o ho
    rw [(hsame q).2.1] at ho
    rw [(hsame q).2.2, (hsame q).1]
    exact h.kept q o ho
  case nodup =>
    intro q
    rw [(hsame q).2.1]
    exact h.nodup q

theorem Mapped.closeTruncated (h : Mapped owner s) {t : T} {size object : Nat}
    (hpoint : s.point t = .unlinked size object) :
    Mapped owner (s.closeTruncated (owner t) t object) := by
  have hobject : (s.point t).object = some object := by rw [hpoint]; rfl
  have hunmapped := h.unmapped hobject (by simp [hpoint])
  have hidle : Mapped owner (s.move t .idle) := h.move (fun _ ho => by cases ho) (fun _ ho => by cases ho)
  constructor
  case opened =>
    intro q o b hmapping
    rw [closeTruncated_use] at hmapping ⊢
    split at hmapping
    · next heq =>
        rw [if_pos heq]
        refine (List.mem_erase_of_ne ?_).mpr (h.opened _ o b hmapping)
        rintro rfl
        exact hunmapped b hmapping
    · next hne =>
        rw [if_neg hne]
        exact h.opened q o b hmapping
  case making =>
    intro t' o b hmaking hmapping
    refine hidle.making t' o b hmaking ?_
    rw [closeTruncated_use] at hmapping
    change (o, b) ∈ (s.use (owner t')).mappings
    grind
  case writable =>
    intro t' o hwritable
    have hmapping : (o, false) ∈ (s.use (owner t')).mappings := hidle.writable t' o hwritable
    rw [closeTruncated_use]
    grind
  case kept =>
    intro q o ho
    rw [closeTruncated_use] at ho ⊢
    have := h.kept q o
    grind
  case nodup =>
    intro q
    rw [closeTruncated_use]
    have := h.nodup q
    grind

theorem mmapRw_use (s : SharedMemory P T) (p : P) (t : T) (object : Nat) (writable : Bool) (q : P) :
    (s.mmapRw p t object writable).use q =
      if q = p then { s.use p with
        mappings := if writable then (object, false) :: (s.use p).mappings else (s.use p).mappings }
      else s.use q := Function.update_apply ..

theorem mmapRw_point (s : SharedMemory P T) (p : P) (t : T) (object : Nat) (writable : Bool) (t' : T) :
    (s.mmapRw p t object writable).point t' =
      if t' = t then .mappedRw object writable else s.point t' := Function.update_apply ..

theorem Mapped.mmapRw (h : Mapped owner s) (hfiles : Files owner limit s) {t : T} {object : Nat}
    (writable : Bool) (hpoint : s.point t = .truncated object) :
    Mapped owner (s.mmapRw (owner t) t object writable) := by
  have hobject : (s.point t).object = some object := by rw [hpoint]; rfl
  have hunmapped := h.unmapped hobject (by simp [hpoint])
  constructor
  case opened =>
    intro q o b hmapping
    rw [mmapRw_use] at hmapping ⊢
    have := h.opened q o b
    have := (hfiles.making t object hobject).1
    grind
  case making =>
    intro t' o b hmaking hmapping
    rw [mmapRw_point] at hmaking ⊢
    rw [mmapRw_use] at hmapping
    have := h.making t' o b
    have := hfiles.single t' t object
    have := hunmapped b
    grind [AllocatePoint.object]
  case writable =>
    intro t' o hwritable
    rw [mmapRw_point] at hwritable
    rw [mmapRw_use]
    have := h.writable t' o
    grind
  case kept =>
    intro q o ho
    rw [mmapRw_use] at ho ⊢
    have := h.kept q o
    grind
  case nodup =>
    intro q
    rw [mmapRw_use]
    have := h.nodup q
    grind

theorem mmapRx_use (s : SharedMemory P T) (p : P) (t : T) (object : Nat) (writable executable : Bool)
    (q : P) : (s.mmapRx p t object writable executable).use q =
      if q = p then { s.use p with
        mappings :=
          if executable then (object, true) :: (s.use p).mappings
          else if writable then (s.use p).mappings.erase (object, false)
          else (s.use p).mappings
        given := if writable && executable then object :: (s.use p).given else (s.use p).given
        buffers := if writable && executable then object :: (s.use p).buffers else (s.use p).buffers }
      else s.use q := Function.update_apply ..

theorem mmapRx_point (s : SharedMemory P T) (p : P) (t : T) (object : Nat) (writable executable : Bool)
    (t' : T) : (s.mmapRx p t object writable executable).point t' =
      if t' = t then .idle else s.point t' := Function.update_apply ..

theorem Mapped.mmapRx (h : Mapped owner s) (hfiles : Files owner limit s) {t : T} {object : Nat}
    {writable : Bool} (executable : Bool) (hpoint : s.point t = .mappedRw object writable) :
    Mapped owner (s.mmapRx (owner t) t object writable executable) := by
  have hobject : (s.point t).object = some object := by rw [hpoint]; rfl
  obtain ⟨hopen, hungiven⟩ := hfiles.making t object hobject
  have hnew : object ∉ (s.use (owner t)).buffers := fun hmem => hungiven (h.kept _ _ hmem).1
  constructor
  case opened =>
    intro q o b hmapping
    rw [mmapRx_use] at hmapping ⊢
    have := h.opened q o b
    grind
  case making =>
    intro t' o b hmaking hmapping
    rw [mmapRx_point] at hmaking ⊢
    rw [mmapRx_use] at hmapping
    have := h.making t' o b
    have := hfiles.single t' t object
    grind [AllocatePoint.object]
  case writable =>
    intro t' o hwritable
    rw [mmapRx_point] at hwritable
    rw [mmapRx_use]
    have := h.writable t' o
    have := hfiles.single t' t object
    grind [AllocatePoint.object]
  case kept =>
    intro q o ho
    rw [mmapRx_use] at ho ⊢
    have := h.kept q o
    have := h.writable t object
    grind
  case nodup =>
    intro q
    rw [mmapRx_use]
    have := h.nodup q
    grind

theorem mem_freed {o object : Nat} {b : Bool} (mappings : List (Nat × Bool)) (hne : o ≠ object) :
    (o, b) ∈ (mappings.erase (object, true)).erase (object, false) ↔ (o, b) ∈ mappings := by
  rw [List.mem_erase_of_ne (by simp [hne]), List.mem_erase_of_ne (by simp [hne])]

omit [DecidableEq T] in
theorem freeExecutable_use (s : SharedMemory P T) (p : P) (object : Nat) (q : P) :
    (s.freeExecutable p object).use q =
      if q = p then { s.use p with
        mappings := ((s.use p).mappings.erase (object, true)).erase (object, false)
        buffers := (s.use p).buffers.erase object }
      else s.use q := Function.update_apply ..

omit [DecidableEq T] in
theorem Mapped.freeExecutable (h : Mapped owner s) (hfiles : Files owner limit s) {p : P} {object : Nat}
    (hbuffer : object ∈ (s.use p).buffers) : Mapped owner (s.freeExecutable p object) := by
  have hgiven := (h.kept p object hbuffer).1
  constructor
  case opened =>
    intro q o b hmapping
    rw [freeExecutable_use] at hmapping ⊢
    have := h.opened q o b
    grind
  case making =>
    intro t o b hmaking hmapping
    refine h.making t o b hmaking ?_
    rw [freeExecutable_use] at hmapping
    grind
  case writable =>
    intro t o hwritable
    have hmaking : o ∉ (s.use (owner t)).given := (hfiles.making t o (by
      rw [show s.point t = .mappedRw o true from hwritable]
      rfl)).2
    rw [freeExecutable_use]
    split
    · next heq =>
        subst heq
        have hne : o ≠ object := by
          rintro rfl
          exact hmaking hgiven
        exact (mem_freed _ hne).mpr (h.writable t o hwritable)
    · exact h.writable t o hwritable
  case kept =>
    intro q o ho
    rw [freeExecutable_use] at ho ⊢
    split at ho
    · next heq =>
        subst heq
        obtain ⟨hne, hbefore⟩ := (h.nodup q).mem_erase_iff.mp ho
        obtain ⟨hgiven, hwritable, hexecutable⟩ := h.kept q o hbefore
        rw [if_pos rfl]
        exact ⟨hgiven, (mem_freed _ hne).mpr hwritable, (mem_freed _ hne).mpr hexecutable⟩
    · next hne =>
        rw [if_neg hne]
        exact h.kept q o ho
  case nodup =>
    intro q
    rw [freeExecutable_use]
    have := h.nodup q
    grind

omit [DecidableEq T] in
theorem Mapped.die (h : Mapped owner s) (p : P) : Mapped owner (s.die owner p) := by
  constructor
  case opened =>
    intro q o b hmapping
    rw [die_use] at hmapping ⊢
    have := h.opened q o b
    grind [MemoryUse.none]
  case making =>
    intro t o b hmaking hmapping
    rw [die_point] at hmaking ⊢
    rw [die_use] at hmapping
    have := h.making t o b
    grind [AllocatePoint.object, MemoryUse.none]
  case writable =>
    intro t o hwritable
    rw [die_point] at hwritable
    rw [die_use]
    have := h.writable t o
    grind
  case kept =>
    intro q o ho
    rw [die_use] at ho ⊢
    have := h.kept q o
    grind [MemoryUse.none]
  case nodup =>
    intro q
    rw [die_use]
    have := h.nodup q
    grind [MemoryUse.none]

/-- **Every step keeps the mappings in order.** -/
theorem Mapped.step (h : Mapped owner s) (hfiles : Files owner limit s)
    (hstep : MemoryStep owner limit mappable s s') : Mapped owner s' := by
  cases hstep with
  | opens => exact h.shmOpen hfiles
  | @unlinks t size object hpoint =>
      have hmoved : Mapped owner (s.move t (.unlinked size object)) := by
        refine h.move (fun o ho => ?_) (fun _ ho => by cases ho)
        rw [hpoint]
        exact ⟨ho, fun hmapped => by cases hmapped⟩
      exact ⟨hmoved.opened, hmoved.making, hmoved.writable, hmoved.kept, hmoved.nodup⟩
  | tooBig => exact h.move (fun _ ho => by cases ho) (fun _ ho => by cases ho)
  | truncateFails hpoint => exact h.closeTruncated hpoint
  | @truncates t size object hpoint =>
      have hmoved : Mapped owner (s.move t (.truncated object)) := by
        refine h.move (fun o ho => ?_) (fun _ ho => by cases ho)
        rw [hpoint]
        exact ⟨ho, fun hmapped => by cases hmapped⟩
      exact ⟨hmoved.opened, hmoved.making, hmoved.writable, hmoved.kept, hmoved.nodup⟩
  | mapsRw writable hpoint => exact h.mmapRw hfiles writable hpoint
  | mapsRx executable hpoint => exact h.mmapRx hfiles executable hpoint
  | frees hbuffer => exact h.freeExecutable hfiles hbuffer
  | dies p => exact h.die p

/-- The name belongs to an object whose maker is gone. -/
def Stuck (s : SharedMemory P T) : Prop :=
  s.named ≠ none ∧ ∀ t size o, s.point t ≠ .opened size o

/-- What a step does to the name, and to the calls that have opened it. -/
theorem step_name (hstep : MemoryStep owner limit mappable s s') :
    (∃ t size, s.named = none ∧ s' = s.shmOpen (owner t) t size) ∨
    (∃ t size o, s.point t = .opened size o ∧ s' = s.shmUnlink t size o) ∨
    (∃ p, s' = s.die owner p) ∨
    (s'.named = s.named ∧ s'.created = s.created ∧
      ∀ t size o, s'.point t = .opened size o ↔ s.point t = .opened size o) := by
  have hmoves : ∀ {t point}, (∀ size o, point ≠ .opened size o) →
      (∀ size o, s.point t ≠ .opened size o) → ∀ t' size o,
      ((s.move t point).point t' = .opened size o ↔ s.point t' = .opened size o) := by
    intro t point hafter hbefore t' size o
    rw [move_point]
    split
    · next heq =>
        subst heq
        exact iff_of_false (hafter size o) (hbefore size o)
    · rfl
  cases hstep with
  | @opens t size _ _ hname _ => exact .inl ⟨t, size, hname, rfl⟩
  | @unlinks t size o hpoint => exact .inr (.inl ⟨t, size, o, hpoint, rfl⟩)
  | dies p => exact .inr (.inr (.inl ⟨p, rfl⟩))
  | frees => exact .inr (.inr (.inr ⟨rfl, rfl, fun _ _ _ => Iff.rfl⟩))
  | tooBig hpoint | truncateFails hpoint | truncates hpoint | mapsRw _ hpoint | mapsRx _ hpoint =>
      refine .inr (.inr (.inr ⟨rfl, rfl, hmoves (fun _ _ hafter => by cases hafter) ?_⟩))
      rw [hpoint]
      exact fun _ _ hbefore => by cases hbefore

theorem Stuck.step (h : s.Stuck) (hstep : MemoryStep owner limit mappable s s') :
    s'.Stuck ∧ s'.created = s.created := by
  obtain ⟨t, size, hname, -⟩ | ⟨t, size, o, hpoint, -⟩ | ⟨p, rfl⟩ | ⟨hnamed, hcreated, hopened⟩ :=
    step_name hstep
  · exact absurd hname h.1
  · exact absurd hpoint (h.2 t size o)
  · refine ⟨⟨h.1, fun t size o hpoint => ?_⟩, rfl⟩
    rw [die_point] at hpoint
    split at hpoint
    · cases hpoint
    · exact h.2 t size o hpoint
  · exact ⟨⟨hnamed ▸ h.1, fun t size o hpoint => h.2 t size o ((hopened t size o).mp hpoint)⟩, hcreated⟩

theorem Stuck.run (h : s.Stuck) (hrun : Relation.ReflTransGen (MemoryStep owner limit mappable) s s') :
    s'.Stuck ∧ s'.created = s.created := by
  induction hrun with
  | refl => exact ⟨h, rfl⟩
  | tail _ hstep ih =>
      obtain ⟨hstuck, hcreated⟩ := ih.1.step hstep
      exact ⟨hstuck, hcreated.trans ih.2⟩

/-- The name is lost: whatever happens from now on, it stays. -/
def Lost (owner : T → P) (limit : Nat) (mappable : List Nat → Nat → Prop)
    (s : SharedMemory P T) : Prop :=
  ∀ s', Relation.ReflTransGen (MemoryStep owner limit mappable) s s' → s'.named ≠ none

theorem lost_iff_stuck : Lost owner limit mappable s ↔ s.Stuck := by
  constructor
  · intro h
    refine ⟨h s .refl, fun t size o hpoint => ?_⟩
    exact h _ (.single (.unlinks hpoint)) rfl
  · exact fun h s' hrun => (h.run hrun).1.1

/-- The only step to lose the name is the end of the process of which a thread has opened it. -/
theorem stuck_step_iff (hfiles : Files owner limit s) (hstep : MemoryStep owner limit mappable s s') :
    s'.Stuck ↔ s.Stuck ∨ ∃ t size o, s.point t = .opened size o ∧ s' = s.die owner (owner t) := by
  constructor
  · intro h
    by_cases hstuck : s.Stuck
    · exact .inl hstuck
    obtain ⟨t, size, -, rfl⟩ | ⟨t, size, o, -, rfl⟩ | ⟨p, rfl⟩ | ⟨hnamed, -, hopened⟩ := step_name hstep
    · refine absurd ?_ (h.2 t size s.created)
      rw [shmOpen_point, if_pos rfl]
    · exact absurd rfl h.1
    · have hopened : ∃ t size o, s.point t = .opened size o := by
        by_contra hnone
        exact hstuck ⟨h.1, fun t size o hpoint => hnone ⟨t, size, o, hpoint⟩⟩
      obtain ⟨t, size, o, hpoint⟩ := hopened
      have howner : owner t = p := by
        by_contra hne
        exact h.2 t size o ((if_neg hne).trans hpoint)
      exact .inr ⟨t, size, o, hpoint, by rw [howner]⟩
    · exact .inl ⟨hnamed ▸ h.1, fun t size o hpoint => h.2 t size o ((hopened t size o).mpr hpoint)⟩
  · rintro (hstuck | ⟨t, size, o, hpoint, rfl⟩)
    · exact (hstuck.step hstep).1
    have hname := hfiles.named t size o hpoint
    refine ⟨fun hnone => ?_, fun t' size' o' hpoint' => ?_⟩
    · change s.named = none at hnone
      rw [hname] at hnone
      cases hnone
    · rw [die_point] at hpoint'
      split at hpoint'
      · cases hpoint'
      · next hne =>
          have hname' := hfiles.named t' size' o' hpoint'
          rw [hname, Option.some.injEq] at hname'
          subst hname'
          refine hne (congrArg owner (hfiles.single t' t o ?_ ?_))
          · rw [hpoint']
            rfl
          · rw [hpoint]
            rfl

omit [DecidableEq P] in
theorem move_self (s : SharedMemory P T) (t : T) (point : AllocatePoint) :
    (s.move t point).point t = point := Function.update_self ..

/-- The object of a new buffer has its size. The other mappings keep theirs. -/
theorem mappedSizes_ftruncate (hfiles : Files owner limit s) (hmapped : Mapped owner s) {t : T}
    {size : Nat} : (((s.shmOpen (owner t) t size).shmUnlink t size s.created).ftruncate t size
      s.created).mappedSizes (owner t) = s.mappedSizes (owner t) := by
  have hsame : ((s.shmOpen (owner t) t size).use (owner t)).mappings = (s.use (owner t)).mappings := by
    rw [shmOpen_use, if_pos rfl]
  change ((s.shmOpen (owner t) t size).use (owner t)).mappings.map _ = (s.use (owner t)).mappings.map _
  rw [hsame]
  refine List.map_congr_left fun mapping hmapping => Function.update_of_ne (fun heq => ?_) _ _
  have hopen := hmapped.opened (owner t) mapping.1 mapping.2 hmapping
  exact absurd (hfiles.created (owner t) _ hopen) (heq ▸ Nat.lt_irrefl _)

/-- A call that nothing disturbs. -/
def allocated (s : SharedMemory P T) (owner : T → P) (t : T) (size : Nat) : SharedMemory P T :=
  ((((s.shmOpen (owner t) t size).shmUnlink t size s.created).ftruncate t size s.created).mmapRw
    (owner t) t s.created true).mmapRx (owner t) t s.created true true

theorem allocated_steps (hfiles : Files owner limit s) (hmapped : Mapped owner s) {t : T} {size : Nat}
    (hpoint : s.point t = .idle) (hname : s.named = none)
    (hroom : (s.use (owner t)).descriptors.length < limit) (hsize : size ≠ 0) (hfits : size ≤ longMax)
    (hwritable : mappable (s.mappedSizes (owner t)) size)
    (hexecutable : mappable (size :: s.mappedSizes (owner t)) size) :
    Relation.ReflTransGen (MemoryStep owner limit mappable) s (s.allocated owner t size) := by
  let opened := s.shmOpen (owner t) t size
  let unlinked := opened.shmUnlink t size s.created
  let truncated := unlinked.ftruncate t size s.created
  let mapped := truncated.mmapRw (owner t) t s.created true
  have hopened : opened.point t = .opened size s.created := move_self ..
  have hunlinked : unlinked.point t = .unlinked size s.created := move_self ..
  have htruncated : truncated.point t = .truncated s.created := move_self ..
  have hmappedRw : mapped.point t = .mappedRw s.created true := move_self ..
  have hsame : truncated.mappedSizes (owner t) = s.mappedSizes (owner t) :=
    mappedSizes_ftruncate hfiles hmapped
  have hnew : truncated.size s.created = size := Function.update_self ..
  have hmore : mapped.mappedSizes (owner t) = size :: s.mappedSizes (owner t) := by
    rw [mappedSizes, mmapRw_use, if_pos rfl]
    change truncated.size s.created :: truncated.mappedSizes (owner t) = _
    rw [hnew, hsame]
  have hfirst : MemoryStep owner limit mappable truncated mapped :=
    .mapsRw true htruncated fun _ => by rwa [hsame, hnew]
  have hsecond : MemoryStep owner limit mappable mapped (s.allocated owner t size) :=
    .mapsRx true hmappedRw fun _ => by
      rw [hmore]
      change mappable _ (truncated.size s.created)
      rwa [hnew]
  exact ((((Relation.ReflTransGen.single (.opens hpoint hsize hname hroom)).tail
    (.unlinks hopened)).tail (.truncates hunlinked hfits)).tail hfirst).tail hsecond

theorem allocated_buffers (s : SharedMemory P T) (owner : T → P) (t : T) (size : Nat) :
    s.created ∈ ((s.allocated owner t size).use (owner t)).buffers := by
  rw [allocated, mmapRx_use, if_pos rfl]
  exact List.mem_cons_self

end SharedMemory

theorem MemoryReached.invariants (h : MemoryReached owner limit mappable s) :
    SharedMemory.Files owner limit s ∧ SharedMemory.Mapped owner s := by
  induction h with
  | refl => exact ⟨SharedMemory.files_start, SharedMemory.mapped_start⟩
  | tail _ hstep ih => exact ⟨ih.1.step hstep, ih.2.step ih.1 hstep⟩

open SharedMemory

/-- **Nobody else writes to a buffer.** In every state that the processes come to, the buffers of a process
are different, each has both mappings, and its object is mapped by no other process and not about to be
given to a thread. -/
theorem buffers_isolated (h : MemoryReached owner limit mappable s) (p : P) :
    (s.use p).buffers.Nodup ∧
      ∀ o ∈ (s.use p).buffers, (o, false) ∈ (s.use p).mappings ∧ (o, true) ∈ (s.use p).mappings ∧
        (∀ q b, (o, b) ∈ (s.use q).mappings → q = p) ∧ ∀ t, (s.point t).object ≠ some o := by
  obtain ⟨hfiles, hmapped⟩ := h.invariants
  refine ⟨hmapped.nodup p, fun o ho => ?_⟩
  obtain ⟨hgiven, hwritable, hexecutable⟩ := hmapped.kept p o ho
  have hopen := hfiles.given_open p o hgiven
  refine ⟨hwritable, hexecutable, ?_, ?_⟩
  · intro q b hmapping
    exact hfiles.apart q p o (hmapped.opened q o b hmapping) hopen
  · intro t hmaking
    obtain ⟨hopen', hungiven⟩ := hfiles.making t o hmaking
    rw [hfiles.apart (owner t) p o hopen' hopen] at hungiven
    exact hungiven hgiven

/-- Room for less than 2^46 bytes. -/
def someRoom (used : List Nat) (size : Nat) : Prop := used.foldr (· + ·) size < 70368744177664

/-- The first of two processes has two buffers, the second has one that it made between them. -/
def threeBuffers : SharedMemory Bool Bool :=
  ((SharedMemory.start.allocated id false 1).allocated id true 2).allocated id false 3

theorem MemoryReached.allocated (h : MemoryReached owner limit mappable s) (t : T) (size : Nat)
    (hpoint : s.point t = .idle) (hname : s.named = none)
    (hroom : (s.use (owner t)).descriptors.length < limit) (hsize : size ≠ 0) (hfits : size ≤ longMax)
    (hwritable : mappable (s.mappedSizes (owner t)) size)
    (hexecutable : mappable (size :: s.mappedSizes (owner t)) size) :
    MemoryReached owner limit mappable (s.allocated owner t size) :=
  h.trans (allocated_steps h.invariants.1 h.invariants.2 hpoint hname hroom hsize hfits hwritable
    hexecutable)

theorem threeBuffers_reached : MemoryReached id 2 someRoom threeBuffers := by
  have hstart : MemoryReached id 2 someRoom (SharedMemory.start : SharedMemory Bool Bool) := .refl
  have hfirst := hstart.allocated false 1 rfl rfl (by decide) (by decide) (by decide)
    (by unfold someRoom; decide) (by unfold someRoom; decide)
  have hsecond := hfirst.allocated true 2 rfl rfl (by decide) (by decide) (by decide)
    (by unfold someRoom; decide) (by unfold someRoom; decide)
  exact hsecond.allocated false 3 rfl rfl (by decide) (by decide) (by decide)
    (by unfold someRoom; decide) (by unfold someRoom; decide)

theorem buffers_isolated_threeBuffers :
    (threeBuffers.use false).buffers = [2, 0] ∧ (threeBuffers.use true).buffers = [1] ∧
      (threeBuffers.use false).buffers.Nodup ∧ (0, true) ∈ (threeBuffers.use false).mappings ∧
      (∀ b, (0, b) ∉ (threeBuffers.use true).mappings) ∧
      ∀ b, (1, b) ∉ (threeBuffers.use false).mappings := by
  obtain ⟨hnodup, hfirst⟩ := buffers_isolated threeBuffers_reached false
  obtain ⟨-, hsecond⟩ := buffers_isolated threeBuffers_reached true
  obtain ⟨-, hmapped, halone, -⟩ := hfirst 0 (by decide)
  obtain ⟨-, -, halone', -⟩ := hsecond 1 (by decide)
  exact ⟨by decide, by decide, hnodup, hmapped,
    fun b hmapping => absurd (halone true b hmapping) (by decide),
    fun b hmapping => absurd (halone' false b hmapping) (by decide)⟩

/-- **Buffers run out.** A process is not given more buffers in its life, those that it has freed included,
than it may have descriptors. -/
theorem buffers_bounded (h : MemoryReached owner limit mappable s) (p : P) :
    (s.use p).given.length ≤ limit := by
  obtain ⟨hfiles, -⟩ := h.invariants
  have hsub : (s.use p).given.Subperm (s.use p).descriptors :=
    List.subperm_of_subset (hfiles.given_nodup p) (hfiles.given_open p)
  exact Nat.le_trans hsub.length_le (hfiles.limited p)

theorem buffers_bounded_threeBuffers : (threeBuffers.use false).given.length ≤ 2 :=
  buffers_bounded threeBuffers_reached false

/-- **When the name is lost.** It is lost in a step if and only if that step kills a process between
`shm_open` and `shm_unlink`; from then on no process is given a buffer whose memory is new. -/
theorem name_lost (h : MemoryReached owner limit mappable s) (hstep : MemoryStep owner limit mappable s s') :
    (Lost owner limit mappable s' ↔ Lost owner limit mappable s ∨
      ∃ t size o, s.point t = .opened size o ∧ s' = s.die owner (owner t)) ∧
    (Lost owner limit mappable s' → ∀ s'', Relation.ReflTransGen (MemoryStep owner limit mappable) s' s'' →
      s''.created = s'.created) := by
  constructor
  · rw [lost_iff_stuck, lost_iff_stuck]
    exact stuck_step_iff h.invariants.1 hstep
  · intro hlost s'' hrun
    exact ((lost_iff_stuck.mp hlost).run hrun).2

theorem name_lost_killed :
    Lost id 1 someRoom
      ((SharedMemory.start.shmOpen false false 1).die id false : SharedMemory Bool Bool) :=
  (name_lost (.single (.opens (t := false) (by rfl) (by decide) rfl (by decide))) (.dies false)).1.mpr
    (.inr ⟨false, 1, 0, by rfl, by rfl⟩)

/-- **Before that it never is.** As long as the name is not lost, every thread that is not in a call can
still come to a buffer, if its process has a descriptor left and room for both mappings. -/
theorem buffer_possible (h : MemoryReached owner limit mappable s)
    (hlost : ¬Lost owner limit mappable s) (t : T) (size : Nat) (hpoint : s.point t = .idle)
    (hroom : (s.use (owner t)).descriptors.length < limit) (hsize : size ≠ 0) (hfits : size ≤ longMax)
    (hwritable : mappable (s.mappedSizes (owner t)) size)
    (hexecutable : mappable (size :: s.mappedSizes (owner t)) size) :
    ∃ s', Relation.ReflTransGen (MemoryStep owner limit mappable) s s' ∧
      s.created ∈ (s'.use (owner t)).buffers := by
  by_cases hname : s.named = none
  · exact ⟨_, allocated_steps h.invariants.1 h.invariants.2 hpoint hname hroom hsize hfits hwritable
      hexecutable, allocated_buffers s owner t size⟩
  have hopened : ∃ t' size' o, s.point t' = .opened size' o := by
    by_contra hnone
    exact hlost (lost_iff_stuck.mpr ⟨hname, fun t' size' o h => hnone ⟨t', size', o, h⟩⟩)
  obtain ⟨t', size', o, hopened⟩ := hopened
  have hne : t ≠ t' := by
    rintro rfl
    rw [hpoint] at hopened
    cases hopened
  -- The other call goes on to `shm_unlink` first.
  have hpoint' : (s.shmUnlink t' size' o).point t = .idle := by
    change (s.move t' (.unlinked size' o)).point t = _
    rw [move_point, if_neg hne]
    exact hpoint
  have hunlinked : MemoryReached owner limit mappable (s.shmUnlink t' size' o) :=
    h.tail (.unlinks hopened)
  exact ⟨_, .head (.unlinks hopened) (allocated_steps hunlinked.invariants.1 hunlinked.invariants.2
    hpoint' rfl hroom hsize hfits hwritable hexecutable), allocated_buffers _ owner t size⟩

/-- Another process is in a call. -/
theorem buffer_possible_opened : ∃ s' : SharedMemory Bool Bool,
    Relation.ReflTransGen (MemoryStep id 1 someRoom) (SharedMemory.start.shmOpen false false 1) s' ∧
      1 ∈ (s'.use true).buffers := by
  have hopens : MemoryStep id 1 someRoom SharedMemory.start (SharedMemory.start.shmOpen false false 1) :=
    .opens (t := false) (by rfl) (by decide) rfl (by decide)
  have hlost : ¬Lost id 1 someRoom (SharedMemory.start.shmOpen false false 1) :=
    fun hlost => hlost _ (.single (.unlinks (t := false) (by rfl))) rfl
  exact buffer_possible (.single hopens) hlost true 4096 (by rfl) (by decide)
    (by decide) (by decide) (by unfold someRoom; decide) (by unfold someRoom; decide)

end Memories

end Ballistic
