import RSafeFS.Local.LocalOperations
import RSafeFS.Local.Stability

/-!
# Symbolic links

Both tables put the exported root in front of the target of a symbolic link, as they do with
the paths. A target is no path inside the export but a text that is read back, and `readlink`
does not take the root away again.
-/

namespace RSafeFS.Local

open Rpc Trace

variable {env : Env}

/-- How POSIX has symbolic links: one that was made gives back the first bytes of its target
as long as no name changes, and none has an empty target. -/
structure KeepsLinks (env : Env) : Prop where
  verbatim : ∀ (before : List Event) (target path : CString) (after : List Event) (size : UInt64),
    env before (.symlink target path) = .ok () →
    (∀ event ∈ after, event.call.changesNames = false) → 0 < size.toNat →
    ∃ stored : Stored size,
      env (before ++ ⟨.symlink target path, .ok ()⟩ :: after) (.readlink path size) = .ok stored ∧
      stored.bytes = target.bytes.take size.toNat
  nonempty : ∀ (before : List Event) (target path : CString),
    env before (.symlink target path) = .ok () → target.bytes ≠ []

/-- The link was made, and no name has changed since. -/
def Linked (env : Env) (target path : CString) (history : List Event) : Prop :=
  ∃ before after, history = before ++ ⟨.symlink target path, .ok ()⟩ :: after ∧
    env before (.symlink target path) = .ok () ∧
    ∀ event ∈ after, event.call.changesNames = false

/-- Reading the link gives the whole of the text, or as much of it as fits before the NUL. -/
def ReadsBack (text : CString) (readlink : UInt64 → M (Int32 × Bytes)) (history : List Event) :
    Prop :=
  ∀ size : UInt64,
    (text.bytes.length < size.toNat → (readlink size history).1 = (0, text.bytes ++ [0])) ∧
    (2 ≤ size.toNat → size.toNat ≤ text.bytes.length →
      (readlink size history).1 = (0, text.bytes.take (size.toNat - 1) ++ [0]))

variable {target path : CString} {history : List Event}

/-- Calls that change no name leave the link. -/
theorem Linked.append (h : Linked env target path history) {later : List Event}
    (hlater : ∀ event ∈ later, event.call.changesNames = false) :
    Linked env target path (history ++ later) := by
  obtain ⟨before, after, rfl, hmade, hquiet⟩ := h
  refine ⟨before, after ++ later, by simp, hmade, fun event hevent => ?_⟩
  exact (List.mem_append.mp hevent).elim (hquiet event) (hlater event)

/-- The link that a call has made. -/
theorem linked_of_made (hmade : env history (.symlink target path) = .ok ())
    {later : List Event} (hlater : ∀ event ∈ later, event.call.changesNames = false) :
    Linked env target path (history ++ ⟨.symlink target path, .ok ()⟩ :: later) :=
  ⟨history, later, rfl, hmade, hlater⟩

/-- An operation that returns 0 has made the link. -/
theorem attempt_linked (h : (attempt env (.symlink target path) history).1 = 0) :
    Linked env target path (attempt env (.symlink target path) history).2 := by
  cases hmade : env history (.symlink target path) with
  | error e =>
    have hruns : Runs (attempt env (.symlink target path)) history e.result
        [⟨.symlink target path, .error e⟩] := runs_call_bind hmade (runs_pure _)
    rw [hruns] at h
    exact absurd (Int32.le_of_eq h.symm) e.not_nonneg
  | ok _ =>
    have hruns : Runs (attempt env (.symlink target path)) history 0
        [⟨.symlink target path, .ok ()⟩] := runs_call_bind hmade (runs_pure _)
    rw [hruns]
    exact linked_of_made hmade (by simp)

/-- So has one that syncs what it has changed. -/
theorem attemptSync_linked {paths : List CString}
    (h : (attemptSync env (.symlink target path) paths history).1 = 0) :
    Linked env target path (attemptSync env (.symlink target path) paths history).2 := by
  cases hmade : env history (.symlink target path) with
  | error e =>
    have hruns : Runs (attemptSync env (.symlink target path) paths) history e.result
        [⟨.symlink target path, .error e⟩] := runs_call_bind hmade (runs_pure _)
    rw [hruns] at h
    exact absurd (Int32.le_of_eq h.symm) e.not_nonneg
  | ok _ =>
    have hyields : Yields (syncPaths env paths) (Syncs paths) := syncPaths_yields paths
    obtain ⟨new, hnew, hsyncs⟩ := hyields (history ++ [⟨.symlink target path, .ok ()⟩])
    have hruns : Runs (attemptSync env (.symlink target path) paths) history
        (syncPaths env paths (history ++ [⟨.symlink target path, .ok ()⟩])).1
        (⟨.symlink target path, .ok ()⟩ :: new) := runs_call_bind hmade (Prod.ext rfl hnew)
    rw [hruns]
    exact linked_of_made hmade hsyncs.quiet

/-- The link is read with the target that it was made with. -/
theorem readlinkInto_linked (henv : KeepsLinks env) (h : Linked env target path history)
    {size : UInt64} (hsize : 2 ≤ size.toNat) :
    (readlinkInto env path size history).1 = (0, target.bytes.take (size.toNat - 1) ++ [0]) := by
  obtain ⟨before, after, rfl, hmade, hquiet⟩ := h
  have hpred : (size - 1).toNat = size.toNat - 1 := by
    rw [UInt64.toNat_sub_of_le _ _ (UInt64.le_iff_toNat_le.mpr (by simp; omega))]
    rfl
  obtain ⟨stored, hstored, hbytes⟩ :=
    henv.verbatim before target path after (size - 1) hmade hquiet (by omega)
  have hruns : Runs (readlinkInto env path size) _ (0, stored.bytes ++ [0])
      [⟨.readlink path (size - 1), .ok stored⟩] := runs_call_bind hstored (runs_pure _)
  rw [hruns, hbytes, hpred]

/-- A target that was kept is no longer than what one call can read. -/
theorem Linked.length_le (henv : KeepsLinks env) (h : Linked env target path history) :
    target.bytes.length ≤ 0x7ffff000 := by
  obtain ⟨before, after, rfl, hmade, hquiet⟩ := h
  have hmax : (0x80000000 : UInt64).toNat = 0x80000000 := rfl
  obtain ⟨stored, -, hbytes⟩ :=
    henv.verbatim before target path after 0x80000000 hmade hquiet (by rw [hmax]; omega)
  have hlength := stored.length_le_max
  rw [hbytes, List.length_take, hmax] at hlength
  omega

variable {rootPath «from» «to» : CString}

/-- A link that was made with the root in front of its target gives back the target itself
exactly if the root is the empty string. -/
theorem readsBack_iff_of_linked (henv : KeepsLinks env)
    (h : Linked env (newPath rootPath «from») path history) :
    ReadsBack «from» (readlinkInto env path) history ↔ rootPath.bytes = [] := by
  have hbytes : (newPath rootPath «from»).bytes = rootPath.bytes ++ «from».bytes := rfl
  constructor
  · intro hreads
    -- A buffer with room for the root as well shows it.
    have hlength := h.length_le henv
    rw [hbytes, List.length_append] at hlength
    obtain ⟨size, hsize⟩ : ∃ size : UInt64,
        size.toNat = rootPath.bytes.length + «from».bytes.length + 2 :=
      ⟨.ofNat (rootPath.bytes.length + «from».bytes.length + 2),
        UInt64.toNat_ofNat_of_lt' (by simp only [UInt64.size]; omega)⟩
    have hwhole := (hreads size).1 (by omega)
    rw [readlinkInto_linked henv h (by omega), hbytes, List.take_of_length_le] at hwhole
    · have hsame := List.append_cancel_right (Prod.mk.inj hwhole).2
      exact List.append_left_eq_self.mp hsame
    · rw [List.length_append]
      omega
  · intro hroot size
    rw [hroot, List.nil_append] at hbytes
    have hpos : 0 < «from».bytes.length := by
      obtain ⟨before, after, -, hmade, -⟩ := h
      have hne := henv.nonempty _ _ _ hmade
      rw [hbytes] at hne
      exact List.length_pos_of_ne_nil hne
    refine ⟨fun hlt => ?_, fun htwo _ => ?_⟩
    · rw [readlinkInto_linked henv h (by omega), hbytes, List.take_of_length_le (by omega)]
    · rw [readlinkInto_linked henv h htwo, hbytes]

/-- **Symbolic links are read back only from an unnamed root.** With either table, after a
`symlink` that has returned 0 and any calls that change no names, `readlink` gives the target
for all sizes of its buffer exactly if the exported root is the empty string. -/
theorem readsBack_iff (henv : KeepsLinks env) (rootPath «from» «to» : CString)
    (history : List Event) {later : List Event}
    (hlater : ∀ event ∈ later, event.call.changesNames = false) :
    ((localSymlink env rootPath «from» «to» history).1 = 0 →
      (ReadsBack «from» (localReadlink env rootPath «to»)
        ((localSymlink env rootPath «from» «to» history).2 ++ later) ↔ rootPath.bytes = [])) ∧
    ((nfsSymlink env rootPath «from» «to» history).1 = 0 →
      (ReadsBack «from» (nfsReadlink env rootPath «to»)
        ((nfsSymlink env rootPath «from» «to» history).2 ++ later) ↔ rootPath.bytes = [])) :=
  ⟨fun h => readsBack_iff_of_linked henv ((attempt_linked h).append hlater),
    fun h => readsBack_iff_of_linked henv ((attemptSync_linked h).append hlater)⟩

/-- The target that the call has given to the path. -/
def targetAt (path : CString) : Event → Option CString
  | ⟨.symlink target link, .ok _⟩ => if link.bytes = path.bytes then some target else none
  | _ => none

/-- A system that keeps links, with targets of at most 4095 bytes, and syncs whatever it is
asked to. -/
def linking : Env := fun history c =>
  match c with
  | .symlink target _ =>
    if target.bytes ≠ [] ∧ target.bytes.length ≤ 4095 then .ok () else .error ⟨36, by decide⟩
  | .readlink path size =>
    match history.reverse.findSome? (targetAt path) with
    | some target =>
      .ok ⟨target.bytes.take (min size.toNat 4095), by rw [List.length_take]; omega,
        by rw [List.length_take]; omega⟩
    | none => .error ⟨22, by decide⟩
  | .open .. => .ok ⟨4, by decide⟩
  | .fsync _ | .close _ => .ok ()
  | _ => .error ⟨38, by decide⟩

/-- Calls that change no name give no path a target. -/
theorem targetAt_of_quiet {path : CString} {event : Event}
    (h : event.call.changesNames = false) : targetAt path event = none := by
  unfold targetAt
  split
  · cases h
  · rfl

/-- It has links as POSIX has them. -/
theorem linking_keepsLinks : KeepsLinks linking where
  verbatim before target path after size hmade hquiet _ := by
    have hmade : target.bytes ≠ [] ∧ target.bytes.length ≤ 4095 := by
      by_contra hnot
      simp only [linking, if_neg hnot] at hmade
      cases hmade
    have hafter : after.reverse.findSome? (targetAt path) = none :=
      List.findSome?_eq_none_iff.mpr fun event hevent =>
        targetAt_of_quiet (hquiet event (List.mem_reverse.mp hevent))
    have hfound : (before ++ ⟨.symlink target path, .ok ()⟩ :: after).reverse.findSome?
        (targetAt path) = some target := by
      simp [List.findSome?_append, hafter, targetAt]
    refine ⟨⟨target.bytes.take (min size.toNat 4095), by rw [List.length_take]; omega,
      by rw [List.length_take]; omega⟩, ?_, ?_⟩
    · simp only [linking, hfound]
    · rw [List.take_eq_take_iff]
      omega
  nonempty before target path hmade := by
    intro hempty
    have hnot : ¬ (target.bytes ≠ [] ∧ target.bytes.length ≤ 4095) := fun h => h.1 hempty
    simp only [linking, if_neg hnot] at hmade
    cases hmade

/-- The root `/srv`. -/
def srv : CString := ⟨[47, 115, 114, 118], by decide⟩

/-- The text `c`, which names a file beside the link. -/
def besides : CString := ⟨[99], by decide⟩

/-- The path `/a` of the link. -/
def linkA : CString := ⟨[47, 97], by decide⟩

/-- Under `/srv`, a link to `c` is read as a link to `/srvc` with either table. -/
theorem readsBack_srv : KeepsLinks linking ∧
    ((localSymlink linking srv besides linkA []).1 = 0 ∧
      (localReadlink linking srv linkA 64 (localSymlink linking srv besides linkA []).2).1 =
        (0, [47, 115, 114, 118, 99, 0]) ∧
      ¬ ReadsBack besides (localReadlink linking srv linkA)
        (localSymlink linking srv besides linkA []).2) ∧
    (nfsSymlink linking srv besides linkA []).1 = 0 ∧
      (nfsReadlink linking srv linkA 64 (nfsSymlink linking srv besides linkA []).2).1 =
        (0, [47, 115, 114, 118, 99, 0]) ∧
      ¬ ReadsBack besides (nfsReadlink linking srv linkA)
        (nfsSymlink linking srv besides linkA []).2 := by
  have hlocal : (localReadlink linking srv linkA 64
      (localSymlink linking srv besides linkA []).2).1 = (0, [47, 115, 114, 118, 99, 0]) := by decide
  have hnfs : (nfsReadlink linking srv linkA 64
      (nfsSymlink linking srv besides linkA []).2).1 = (0, [47, 115, 114, 118, 99, 0]) := by decide
  refine ⟨linking_keepsLinks, ⟨by decide, hlocal, fun h => ?_⟩, by decide, hnfs, fun h => ?_⟩
  · have hread := (h 64).1 (by decide)
    rw [hlocal] at hread
    exact absurd hread (by decide)
  · have hread := (h 64).1 (by decide)
    rw [hnfs] at hread
    exact absurd hread (by decide)

/-- The empty root. -/
def noRoot : CString := ⟨[], List.not_mem_nil⟩

/-- Under the empty root the link is read as it was made. -/
theorem readsBack_iff_noRoot : ReadsBack besides (localReadlink linking noRoot linkA)
      (localSymlink linking noRoot besides linkA []).2 ∧
    ReadsBack besides (nfsReadlink linking noRoot linkA)
      (nfsSymlink linking noRoot besides linkA []).2 := by
  have h := readsBack_iff linking_keepsLinks noRoot besides linkA [] (by simp : ∀ event ∈ [], _)
  simp only [List.append_nil] at h
  exact ⟨(h.1 (by decide)).mpr rfl, (h.2 (by decide)).mpr rfl⟩

end RSafeFS.Local
