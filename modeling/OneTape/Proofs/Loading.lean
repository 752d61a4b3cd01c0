import Mathlib.Data.List.Sort
import Mathlib.Data.String.Basic
import OneTape.Loader
import OneTape.Proofs.Analysis
import OneTape.Proofs.Ordered

/-!
# Loading directories in any order

A system lists the entries of a directory in an order of its own. The loaded machines do not depend
on it: they come first, sorted by path. The errors come after them, and the sort is stable and takes
any two errors as equal, so that they stay in the order of the listing. With two different errors
the result therefore does depend on the listing.

Results:
* `Loaded.filter_failed_mergeSort`: sorting keeps the order of what could not be loaded.
* `FileTree.failuresOf_loadEntries`, `FileTree.machinesOf_loadEntries_perm`,
  `FileTree.pairwise_machinesOf_loadEntries`: the two parts of a result.
* `FileTree.machinesOf_loadEntries_congr`: the loaded machines do not depend on the listing.
* `FileTree.loadEntries_stable_iff`: results do not depend on the listing exactly when all errors
  are the same.
* `FileTree.loadDirectory_order`: all of this for whole directories.
* `FileTree.loadDirectory_faulty`: two listings of a directory with two faulty files give different
  results.
-/

namespace OneTape

/-! ## The two parts of a result -/

/-- The machines among the results of loading files. -/
def machinesOf (results : List (Except Error (String × Machine))) : List (String × Machine) :=
  results.filterMap Except.toOption

/-- The error of a result. -/
def failure? : Except Error (String × Machine) → Option Error
  | .ok _ => none
  | .error e => some e

/-- The errors among the results of loading files. -/
def failuresOf (results : List (Except Error (String × Machine))) : List Error :=
  results.filterMap failure?

/-- Machines followed by errors. -/
def inParts (machines : List (String × Machine)) (failures : List Error) :
    List (Except Error (String × Machine)) :=
  machines.map .ok ++ failures.map .error

section Parts

variable {results : List (Except Error (String × Machine))}

theorem eq_ok_of_toOption {r : Except Error (String × Machine)} {p : String × Machine}
    (h : r.toOption = some p) :
    r = .ok p := by
  cases r with
  | error e => cases h
  | ok q =>
    cases h
    rfl

theorem mem_machinesOf {p : String × Machine} : p ∈ machinesOf results ↔ .ok p ∈ results := by
  simp only [machinesOf, List.mem_filterMap]
  constructor
  · rintro ⟨r, hmem, hr⟩
    rwa [← eq_ok_of_toOption hr]
  · exact fun h => ⟨.ok p, h, rfl⟩

theorem machinesOf_eq_nil (h : ∀ r ∈ results, r.isOk = false) : machinesOf results = [] := by
  refine List.eq_nil_iff_forall_not_mem.mpr fun p hp => ?_
  cases h _ (mem_machinesOf.mp hp)

/-- Results without an error in front of a machine are in parts. -/
theorem eq_inParts (h : results.Pairwise fun a b => b.isOk = true → a.isOk = true) :
    results = inParts (machinesOf results) (failuresOf results) := by
  induction results with
  | nil => rfl
  | cons r rest ih =>
    obtain ⟨hr, hrest⟩ := List.pairwise_cons.mp h
    have ih := ih hrest
    cases r with
    | ok p => exact congrArg (List.cons (.ok p)) ih
    | error e =>
      have hnil : machinesOf rest = [] := by
        refine machinesOf_eq_nil fun b hb => ?_
        cases hok : b.isOk with
        | false => rfl
        | true => cases hr b hb hok
      have hnil' : machinesOf (.error e :: rest) = [] := hnil
      rw [hnil] at ih
      rw [hnil']
      exact congrArg (List.cons (.error e)) ih

theorem eq_of_perm_of_forall_eq {failures failures' : List Error} (h : failures'.Perm failures)
    (heq : ∀ e ∈ failures, ∀ e' ∈ failures, e = e') : failures' = failures := by
  cases failures with
  | nil => exact h.eq_nil
  | cons e rest =>
    have hall : e :: rest = List.replicate (e :: rest).length e :=
      List.eq_replicate_of_mem fun e' he' => heq e' he' e List.mem_cons_self
    rw [hall] at h ⊢
    exact List.perm_replicate.mp h

/-- Errors that keep their order however the items are permuted are all the same: each of them can
be made the first. -/
theorem forall_eq_of_stable {α : Type} {f : α → Option Error} {xs : List α}
    (h : ∀ ys : List α, ys.Perm xs → ys.filterMap f = xs.filterMap f) :
    ∀ e ∈ xs.filterMap f, ∀ e' ∈ xs.filterMap f, e = e' := by
  have hfirst : ∀ e ∈ xs.filterMap f, (xs.filterMap f).head? = some e := by
    intro e he
    obtain ⟨x, hx, hfx⟩ := List.mem_filterMap.mp he
    obtain ⟨front, back, rfl⟩ := List.append_of_mem hx
    rw [← h (x :: (front ++ back)) List.perm_middle.symm, List.filterMap_cons_some hfx]
    rfl
  intro e he e' he'
  exact Option.some.inj ((hfirst e he).symm.trans (hfirst e' he'))

theorem forall_eq_iff_length_le_one {failures : List Error} (hn : failures.Nodup) :
    (∀ e ∈ failures, ∀ e' ∈ failures, e = e') ↔ failures.length ≤ 1 := by
  match failures with
  | [] => simp
  | [e] => simp
  | e :: e' :: rest =>
    have hne : e ≠ e' := by
      rintro rfl
      simp at hn
    refine ⟨fun h => absurd (h e ?_ e' ?_) hne, fun h => ?_⟩
    · simp
    · simp
    · simp at h

end Parts

/-! ## The order of loaded files -/

namespace Loaded

variable {a b l : Loaded}

/-- Whether there is no machine. -/
def failed : Loaded → Bool
  | machine .. => false
  | failure _ => true

theorem notAfter_trans (a b c : Loaded) (hab : a.notAfter b = true) (hbc : b.notAfter c = true) :
    a.notAfter c = true := by
  cases a <;> cases b <;> cases c <;> simp_all [notAfter]
  exact compare_trans hab hbc

theorem notAfter_total (a b : Loaded) : (a.notAfter b || b.notAfter a) = true := by
  cases a <;> cases b <;> simp [notAfter]
  next x _ _ y _ _ =>
    rw [compare_swap y x]
    cases compare x y <;> simp

theorem notAfter_of_failed (ha : a.failed = true) (hb : b.failed = true) : a.notAfter b = true := by
  cases a with
  | machine name path m => cases ha
  | failure e =>
    cases b with
    | machine name path m => cases hb
    | failure e' => rfl

/-- **Sorting keeps the order of what could not be loaded.** -/
theorem filter_failed_mergeSort (ls : List Loaded) :
    (ls.mergeSort notAfter).filter failed = ls.filter failed := by
  have hpairwise : (ls.filter failed).Pairwise fun a b => a.notAfter b = true :=
    List.pairwise_of_forall_mem_list fun a ha b hb =>
      notAfter_of_failed (List.mem_filter.mp ha).2 (List.mem_filter.mp hb).2
  have hsublist : (ls.filter failed).Sublist (ls.mergeSort notAfter) :=
    List.sublist_mergeSort notAfter_trans notAfter_total hpairwise List.filter_sublist
  have hfiltered : (ls.filter failed).Sublist ((ls.mergeSort notAfter).filter failed) := by
    simpa using hsublist.filter failed
  have hlength := ((List.mergeSort_perm ls notAfter).filter failed).length_eq
  exact (hfiltered.eq_of_length hlength.symm).symm

/-- No error comes before a machine. -/
theorem isOk_of_notAfter (h : a.notAfter b = true) (hb : b.outcome.isOk = true) :
    a.outcome.isOk = true := by
  cases a with
  | machine name path m => rfl
  | failure e =>
    cases b with
    | machine name path m => cases h
    | failure e' => cases hb

theorem eq_machine_of_outcome {p : String × Machine} (h : l.outcome = .ok p) :
    ∃ name, l = machine name p.1 p.2 := by
  cases l with
  | failure e => cases h
  | machine name path m =>
    cases h
    exact ⟨name, rfl⟩

theorem failuresOf_map_outcome (ls : List Loaded) :
    failuresOf (ls.map outcome) = failuresOf ((ls.filter failed).map outcome) := by
  rw [failuresOf, failuresOf, List.filterMap_map, List.filterMap_map, List.filterMap_filter]
  refine List.filterMap_congr fun l _ => ?_
  cases l <;> rfl

end Loaded

/-! ## Paths of entries -/

/-- What stands in front of the name of an entry. -/
def entryStem (directory : String) : String :=
  if directory.endsWith "/" then directory else directory ++ "/"

theorem entryPath_eq (directory name : String) :
    entryPath directory name = entryStem directory ++ name := by
  unfold entryPath entryStem
  split_ifs <;> rfl

theorem entryPath_injective {directory a b : String}
    (h : entryPath directory a = entryPath directory b) : a = b := by
  rw [entryPath_eq, entryPath_eq] at h
  have := congrArg String.toList h
  simp only [String.toList_append] at this
  exact String.toList_injective (List.append_cancel_left this)

theorem entryPath_le {directory a b : String} (h : (compare a b).isLE = true) :
    entryPath directory a ≤ entryPath directory b := by
  have hle : a ≤ b := by
    rw [← compare_le_iff_le]
    intro hgt
    rw [hgt] at h
    cases h
  rcases hle.lt_or_eq with hlt | rfl
  · refine le_of_lt (String.lt_iff_toList_lt.mpr ?_)
    rw [entryPath_eq, entryPath_eq, String.toList_append, String.toList_append]
    exact List.append_left_lt (String.lt_iff_toList_lt.mp hlt)
  · exact le_rfl

/-! ## Loading the entries of a listing -/

namespace FileTree

variable {t t' : FileTree} {directory : String}
  {entries entries' : List (Except AccessFault String)}

theorem machine_of_loadEntry {entry : Except AccessFault String} {name path : String} {m : Machine}
    (h : t.loadEntry directory entry = some (.machine name path m)) :
    path = entryPath directory name ∧ t.loadMachine path = .ok m := by
  cases entry with
  | error fault => cases h
  | ok n =>
    simp only [loadEntry] at h
    split at h
    · split at h
      · next hload =>
        cases h
        exact ⟨rfl, hload⟩
      · cases h
    · cases h

/-- The error of an entry. -/
def entryError? (t : FileTree) (directory : String) (entry : Except AccessFault String) :
    Option Error :=
  (t.loadEntry directory entry).bind (failure? ·.outcome)

/-- An error tells its entry, by the fault or by the path of the file. -/
theorem entryError?_injective {entry entry' : Except AccessFault String} {e : Error}
    (h : t.entryError? directory entry = some e) (h' : t.entryError? directory entry' = some e) :
    entry = entry' := by
  have hcause : ∀ {entry}, t.entryError? directory entry = some e →
      (∃ fault, entry = .error fault ∧ e = .file (.readEntry fault)) ∨
        ∃ name cause, entry = .ok name ∧ e = .load (entryPath directory name) cause := by
    intro entry h
    cases entry with
    | error fault => exact .inl ⟨fault, rfl, (Option.some.inj h).symm⟩
    | ok name =>
      simp only [entryError?, loadEntry] at h
      split at h
      · cases hload : t.loadMachine (entryPath directory name) with
        | ok m => simp [hload, Loaded.outcome, failure?] at h
        | error cause =>
          rw [hload] at h
          exact .inr ⟨name, cause, rfl, (Option.some.inj h).symm⟩
      · cases h
  rcases hcause h with ⟨fault, rfl, rfl⟩ | ⟨name, cause, rfl, rfl⟩
  · rcases hcause h' with ⟨fault', rfl, heq⟩ | ⟨_, _, -, heq⟩
    · cases heq
      rfl
    · cases heq
  · rcases hcause h' with ⟨_, -, heq⟩ | ⟨name', cause', rfl, heq⟩
    · cases heq
    · rw [entryPath_injective (Error.load.inj heq).1]

/-- What loading gives for the entries of a listing, one after the other. -/
def entryResults (t : FileTree) (directory : String) (entries : List (Except AccessFault String)) :
    List (Except Error (String × Machine)) :=
  (entries.filterMap (t.loadEntry directory)).map Loaded.outcome

theorem entryResults_perm (t : FileTree) (directory : String) (h : entries'.Perm entries) :
    (t.entryResults directory entries').Perm (t.entryResults directory entries) :=
  (h.filterMap _).map _

theorem failuresOf_entryResults (t : FileTree) (directory : String)
    (entries : List (Except AccessFault String)) :
    failuresOf (t.entryResults directory entries) =
      entries.filterMap (t.entryError? directory) := by
  rw [failuresOf, entryResults, List.filterMap_map, List.filterMap_filterMap]
  rfl

/-- The loaded entries in the order of the result. -/
def sortedEntries (t : FileTree) (directory : String) (entries : List (Except AccessFault String)) :
    List Loaded :=
  (entries.filterMap (t.loadEntry directory)).mergeSort Loaded.notAfter

theorem loadEntries_eq_map (t : FileTree) (directory : String)
    (entries : List (Except AccessFault String)) :
    t.loadEntries directory entries = (t.sortedEntries directory entries).map Loaded.outcome := rfl

theorem pairwise_sortedEntries (t : FileTree) (directory : String)
    (entries : List (Except AccessFault String)) :
    (t.sortedEntries directory entries).Pairwise fun a b => a.notAfter b = true :=
  List.pairwise_mergeSort Loaded.notAfter_trans Loaded.notAfter_total _

theorem machine_of_mem_sortedEntries {name path : String} {m : Machine}
    (h : .machine name path m ∈ t.sortedEntries directory entries) :
    path = entryPath directory name ∧ t.loadMachine path = .ok m := by
  obtain ⟨entry, -, hentry⟩ := List.mem_filterMap.mp (List.mem_mergeSort.mp h)
  exact machine_of_loadEntry hentry

/-- Machines come before errors. -/
theorem loadEntries_inParts (t : FileTree) (directory : String)
    (entries : List (Except AccessFault String)) :
    t.loadEntries directory entries =
      inParts (machinesOf (t.loadEntries directory entries))
        (failuresOf (t.loadEntries directory entries)) := by
  refine eq_inParts ?_
  rw [loadEntries_eq_map, List.pairwise_map]
  exact (t.pairwise_sortedEntries directory entries).imp fun hab hb =>
    Loaded.isOk_of_notAfter hab hb

/-- Errors are in the order of the listing. -/
theorem failuresOf_loadEntries (t : FileTree) (directory : String)
    (entries : List (Except AccessFault String)) :
    failuresOf (t.loadEntries directory entries) =
      failuresOf (t.entryResults directory entries) := by
  rw [loadEntries_eq_map, entryResults, Loaded.failuresOf_map_outcome, sortedEntries,
    Loaded.filter_failed_mergeSort, ← Loaded.failuresOf_map_outcome]

/-- The machines of a result are those of the listing. -/
theorem machinesOf_loadEntries_perm (t : FileTree) (directory : String)
    (entries : List (Except AccessFault String)) :
    (machinesOf (t.loadEntries directory entries)).Perm
      (machinesOf (t.entryResults directory entries)) :=
  ((List.mergeSort_perm (entries.filterMap (t.loadEntry directory)) Loaded.notAfter).map
    Loaded.outcome).filterMap _

theorem exists_of_mem_machinesOf {p : String × Machine}
    (h : p ∈ machinesOf (t.loadEntries directory entries)) :
    ∃ name, .machine name p.1 p.2 ∈ t.sortedEntries directory entries := by
  rw [mem_machinesOf, loadEntries_eq_map] at h
  obtain ⟨l, hl, hp⟩ := List.mem_map.mp h
  obtain ⟨name, rfl⟩ := Loaded.eq_machine_of_outcome hp
  exact ⟨name, hl⟩

/-- The machines of a result are sorted by path. -/
theorem pairwise_machinesOf_loadEntries (t : FileTree) (directory : String)
    (entries : List (Except AccessFault String)) :
    (machinesOf (t.loadEntries directory entries)).Pairwise fun p q => p.1 ≤ q.1 := by
  rw [machinesOf, loadEntries_eq_map, List.filterMap_map, List.pairwise_filterMap]
  refine (t.pairwise_sortedEntries directory entries).imp_of_mem fun ha hb hab p hp q hq => ?_
  obtain ⟨name, rfl⟩ := Loaded.eq_machine_of_outcome (eq_ok_of_toOption hp)
  obtain ⟨name', rfl⟩ := Loaded.eq_machine_of_outcome (eq_ok_of_toOption hq)
  rw [(machine_of_mem_sortedEntries ha).1, (machine_of_mem_sortedEntries hb).1]
  exact entryPath_le hab

/-- **The machines of a result do not depend on the order of the listing.** -/
theorem machinesOf_loadEntries_congr (t : FileTree) (directory : String)
    (h : entries'.Perm entries) :
    machinesOf (t.loadEntries directory entries') =
      machinesOf (t.loadEntries directory entries) := by
  refine List.Perm.eq_of_pairwise (fun p q hp hq hpq hqp => ?_)
    (t.pairwise_machinesOf_loadEntries directory entries')
    (t.pairwise_machinesOf_loadEntries directory entries) ?_
  · -- two machines with the same path have been loaded from the same file
    obtain ⟨_, hp⟩ := exists_of_mem_machinesOf hp
    obtain ⟨_, hq⟩ := exists_of_mem_machinesOf hq
    have hpath : p.1 = q.1 := le_antisymm hpq hqp
    have hload := (machine_of_mem_sortedEntries hp).2
    rw [hpath, (machine_of_mem_sortedEntries hq).2] at hload
    exact Prod.ext hpath (Except.ok.inj hload).symm
  · calc (machinesOf (t.loadEntries directory entries')).Perm
          (machinesOf (t.entryResults directory entries')) :=
        t.machinesOf_loadEntries_perm directory entries'
      List.Perm _ (machinesOf (t.entryResults directory entries)) :=
        (t.entryResults_perm directory h).filterMap _
      List.Perm _ (machinesOf (t.loadEntries directory entries)) :=
        (t.machinesOf_loadEntries_perm directory entries).symm

theorem failuresOf_loadEntries_perm (t : FileTree) (directory : String)
    (h : entries'.Perm entries) :
    (failuresOf (t.loadEntries directory entries')).Perm
      (failuresOf (t.loadEntries directory entries)) := by
  rw [failuresOf_loadEntries, failuresOf_loadEntries]
  exact (t.entryResults_perm directory h).filterMap _

/-- Results differ in the order of their errors only. -/
theorem loadEntries_eq_iff (t : FileTree) (directory : String) (h : entries'.Perm entries) :
    t.loadEntries directory entries' = t.loadEntries directory entries ↔
      failuresOf (t.loadEntries directory entries') =
        failuresOf (t.loadEntries directory entries) := by
  refine ⟨congrArg failuresOf, fun hfailures => ?_⟩
  rw [t.loadEntries_inParts directory entries', t.loadEntries_inParts directory entries, hfailures,
    t.machinesOf_loadEntries_congr directory h]

/-- **Results do not depend on the order of the listing if and only if all errors are the same.** -/
theorem loadEntries_stable_iff (t : FileTree) (directory : String)
    (entries : List (Except AccessFault String)) :
    (∀ entries', entries'.Perm entries →
      t.loadEntries directory entries' = t.loadEntries directory entries) ↔
      ∀ e ∈ failuresOf (t.loadEntries directory entries),
        ∀ e' ∈ failuresOf (t.loadEntries directory entries), e = e' := by
  constructor
  · intro h
    rw [failuresOf_loadEntries, failuresOf_entryResults]
    refine forall_eq_of_stable fun entries' hperm => ?_
    rw [← failuresOf_entryResults, ← failuresOf_entryResults, ← failuresOf_loadEntries,
      ← failuresOf_loadEntries, h entries' hperm]
  · intro h entries' hperm
    refine (t.loadEntries_eq_iff directory hperm).mpr ?_
    exact eq_of_perm_of_forall_eq (t.failuresOf_loadEntries_perm directory hperm) h

theorem nodup_failuresOf_loadEntries (t : FileTree) (directory : String) (h : entries.Nodup) :
    (failuresOf (t.loadEntries directory entries)).Nodup := by
  rw [failuresOf_loadEntries, failuresOf_entryResults]
  exact h.filterMap fun a b e ha hb => entryError?_injective ha hb

/-! ## Directories in another order -/

/-- The same tree in another order: everything stands where it stood, and the same places and faults
are listed. -/
structure Relisted (t t' : FileTree) : Prop where
  entry : ∀ place, t'.entry place = t.entry place
  places : (t'.files.map (·.1) ++ t'.directories).Perm (t.files.map (·.1) ++ t.directories)
  faults : t'.faults.Perm t.faults

namespace Relisted

theorem follow (h : t.Relisted t') (steps : List String) (place : List String) :
    t'.follow place steps = t.follow place steps := by
  induction steps generalizing place with
  | nil => rfl
  | cons step more ih => simp only [FileTree.follow, ih, h.entry]

theorem locate (h : t.Relisted t') (path : String) : t'.locate path = t.locate path := by
  simp only [FileTree.locate, h.follow]

theorem isDirectory (h : t.Relisted t') (path : String) :
    t'.isDirectory path = t.isDirectory path := by
  simp only [FileTree.isDirectory, h.locate, h.entry]

theorem reaches (h : t.Relisted t') (path : String) : t'.reaches path = t.reaches path := by
  simp only [FileTree.reaches, h.locate, h.entry]

theorem loadMachine (h : t.Relisted t') (path : String) :
    t'.loadMachine path = t.loadMachine path := by
  simp only [FileTree.loadMachine, FileTree.read, h.locate, h.entry]

theorem loadEntries (h : t.Relisted t') (directory : String)
    (entries : List (Except AccessFault String)) :
    t'.loadEntries directory entries = t.loadEntries directory entries := by
  have hentry : t'.loadEntry directory = t.loadEntry directory := by
    funext entry
    cases entry with
    | error fault => rfl
    | ok name =>
      have hfile : t'.isMachineFile directory name = t.isMachineFile directory name := by
        simp only [FileTree.isMachineFile, h.isDirectory]
      simp only [FileTree.loadEntry, hfile, h.loadMachine]
  simp only [FileTree.loadEntries, hentry]

/-- A directory cannot be listed in either order, or it is listed in both. -/
theorem list (h : t.Relisted t') (directory : String) :
    (∃ fault, t.list directory = .error fault ∧ t'.list directory = .error fault) ∨
      ∃ entries entries', t.list directory = .ok entries ∧ t'.list directory = .ok entries' ∧
        entries'.Perm entries := by
  simp only [FileTree.list, h.locate, h.entry]
  cases t.locate directory with
  | error fault => exact .inl ⟨fault, rfl, rfl⟩
  | ok place =>
    simp only [except_ok_bind]
    cases t.entry place with
    | file bytes => exact .inl ⟨_, rfl, rfl⟩
    | missing => exact .inl ⟨_, rfl, rfl⟩
    | directory =>
      refine .inr ⟨_, _, rfl, rfl, ?_⟩
      exact ((h.places.filterMap _).map _).append ((h.faults.filterMap _).map _)

end Relisted

theorem reaches_of_list (h : t.list directory = .ok entries) : t.reaches directory = true := by
  unfold FileTree.list at h
  unfold FileTree.reaches
  cases hlocate : t.locate directory with
  | error fault =>
    rw [hlocate] at h
    cases h
  | ok place =>
    rw [hlocate, except_ok_bind] at h
    cases hentry : t.entry place with
    | missing =>
      rw [hentry] at h
      cases h
    | file bytes => simp only [hentry]
    | directory => simp only [hentry]

theorem loadDirectory_of_list (h : t.list directory = .ok entries) :
    t.loadDirectory directory = t.loadEntries directory entries := by
  rw [loadDirectory, reaches_of_list h, h]
  rfl

/-- Without a listing there is one error, which does not depend on an order. -/
theorem Relisted.loadDirectory_cases (h : t.Relisted t') (directory : String) :
    (∃ e, t.loadDirectory directory = [.error e] ∧ t'.loadDirectory directory = [.error e]) ∨
      ∃ entries entries', entries'.Perm entries ∧
        t.loadDirectory directory = t.loadEntries directory entries ∧
        t'.loadDirectory directory = t.loadEntries directory entries' := by
  rcases h.list directory with ⟨fault, hlist, hlist'⟩ | ⟨entries, entries', hlist, hlist', hperm⟩
  · left
    simp only [loadDirectory, h.reaches, hlist, hlist']
    cases t.reaches directory with
    | false => exact ⟨_, rfl, rfl⟩
    | true => exact ⟨_, rfl, rfl⟩
  · refine .inr ⟨entries, entries', hperm, loadDirectory_of_list hlist, ?_⟩
    rw [loadDirectory_of_list hlist', h.loadEntries]

/-- **What of a loaded directory depends on its listing.** In whatever order the entries of a tree
are listed, loading a directory gives the same machines, sorted by path, and after them the same
errors, in some order. The machines and errors are those of the entries that are listed, and the
errors come in the order of the listing. So the result is the same for all orders of a listing if
and only if all errors are the same. If no entry is listed twice, this means that at most one entry
fails. -/
theorem loadDirectory_order (t : FileTree) (directory : String) :
    (∀ t', t.Relisted t' →
      let r := t.loadDirectory directory
      let r' := t'.loadDirectory directory
      r = inParts (machinesOf r) (failuresOf r) ∧ r' = inParts (machinesOf r) (failuresOf r') ∧
      ((machinesOf r).Pairwise fun p q => p.1 ≤ q.1) ∧ (failuresOf r').Perm (failuresOf r)) ∧
    ∀ entries, t.list directory = .ok entries →
      let r := t.loadDirectory directory
      (machinesOf r).Perm (machinesOf (t.entryResults directory entries)) ∧
      failuresOf r = failuresOf (t.entryResults directory entries) ∧
      ((∀ entries', entries'.Perm entries → t.loadEntries directory entries' = r) ↔
        ∀ e ∈ failuresOf r, ∀ e' ∈ failuresOf r, e = e') ∧
      (entries.Nodup →
        ((∀ entries', entries'.Perm entries → t.loadEntries directory entries' = r) ↔
          (failuresOf r).length ≤ 1)) := by
  constructor
  · intro t' h
    rcases h.loadDirectory_cases directory with ⟨e, hr, hr'⟩ | ⟨entries, entries', hperm, hr, hr'⟩
    · simp only [hr, hr']
      exact ⟨rfl, rfl, .nil, .refl _⟩
    · simp only [hr, hr']
      refine ⟨t.loadEntries_inParts directory entries, ?_,
        t.pairwise_machinesOf_loadEntries directory entries,
        t.failuresOf_loadEntries_perm directory hperm⟩
      rw [← t.machinesOf_loadEntries_congr directory hperm]
      exact t.loadEntries_inParts directory entries'
  · intro entries hlist
    simp only [loadDirectory_of_list hlist]
    have hstable := t.loadEntries_stable_iff directory entries
    refine ⟨t.machinesOf_loadEntries_perm directory entries,
      t.failuresOf_loadEntries directory entries, hstable, fun hn => hstable.trans ?_⟩
    exact forall_eq_iff_length_le_one (t.nodup_failuresOf_loadEntries directory hn)

/-- A directory with two files that hold no text. -/
def faultyPair (first second : String) : FileTree where
  files := [(["m", first], ⟨#[0xff]⟩), (["m", second], ⟨#[0xff]⟩)]
  directories := [["m"]]

theorem relisted_faultyPair (first second : String) :
    (faultyPair first second).Relisted (faultyPair second first) where
  entry place := by
    simp only [entry, faultyPair, List.find?_cons, List.find?_nil]
    cases ["m", first] == place <;> cases ["m", second] == place <;> rfl
  places := .swap _ _ _
  faults := .refl _

/-- **With two faulty files the listing shows in the result.** -/
theorem loadDirectory_faulty : (faultyPair "a.tm" "b.tm").Relisted (faultyPair "b.tm" "a.tm") ∧
    (faultyPair "a.tm" "b.tm").loadDirectory "m" ≠
      (faultyPair "b.tm" "a.tm").loadDirectory "m" := by
  refine ⟨relisted_faultyPair "a.tm" "b.tm", fun h => ?_⟩
  have hlist : (faultyPair "a.tm" "b.tm").list "m" = .ok [.ok "a.tm", .ok "b.tm"] := by decide
  have hlist' : (faultyPair "b.tm" "a.tm").list "m" = .ok [.ok "b.tm", .ok "a.tm"] := by decide
  have hfailures := congrArg failuresOf h
  rw [loadDirectory_of_list hlist, loadDirectory_of_list hlist', failuresOf_loadEntries,
    failuresOf_loadEntries] at hfailures
  exact absurd hfailures (by decide +kernel)

end FileTree
end OneTape
