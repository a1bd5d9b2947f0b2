import AsyncOrder.CommandLine.Execute
import AsyncOrder.Proofs.Scope.Drawing
import AsyncOrder.Proofs.Scope.Nesting

/-!
# Writing the drawings

What has been written to a file is what is read back from there, until the file is written again.
A file directly in a directory has its own name as the last of its place, so files with different
names are apart, and of the drawings none is written over another:

    d.write path content = .ok d' → d'.Holds path content                (Directory.holds_of_write)
    (drawings.map (·.1)).Nodup → (writeAll files (inside dir drawings)).run d = (none, d') →
      ∀ x ∈ drawings, d'.Holds (inDirectory dir x.1) x.2                           (holds_writeAll)
-/

namespace AsyncOrder

open Traversal

/-! ## Paths -/

/-- A name that a file can have. -/
structure IsFileName (name : String) : Prop where
  nonempty : name ≠ ""
  slash : '/' ∉ name.toList
  here : name ≠ "."
  up : name ≠ ".."

variable {dir name path content : String}

theorem namesOn_of_toList {before after : List Char} (h : path.toList = before ++ '/' :: after) :
    namesOn path = namesOn (String.ofList before) ++ namesOn (String.ofList after) := by
  unfold namesOn
  rw [h, List.splitOn_append_cons_self, List.map_append, List.filter_append, String.toList_ofList,
    String.toList_ofList]

theorem IsFileName.namesOn (h : IsFileName name) : namesOn name = [name] := by
  have hempty : name.isEmpty = false := by simpa using h.nonempty
  rw [AsyncOrder.namesOn, List.splitOn_eq_singleton h.slash]
  simp [hempty]

theorem endsWith_slash_iff : path.endsWith "/" = true ↔ ['/'] <:+ path.toList := by
  rw [← String.endsWith_toSlice, String.Slice.endsWith_string_iff, String.copy_toSlice]
  rfl

/-- The directory ends with a slash, or is given one. -/
theorem exists_toList_inDirectory (dir name : String) : ∃ before,
    (inDirectory dir name).toList = before ++ '/' :: name.toList ∧
      namesOn dir = namesOn (String.ofList before) := by
  unfold inDirectory
  split
  next hslash =>
    obtain ⟨before, hbefore⟩ := endsWith_slash_iff.1 hslash
    have hdir : dir.toList = before ++ '/' :: [] := hbefore.symm
    refine ⟨before, by simp [hdir], ?_⟩
    rw [namesOn_of_toList hdir, show namesOn (String.ofList []) = [] by decide, List.append_nil]
  next => 
    have htext : s!"{dir}/{name}" = dir ++ ("/" ++ name) := by
      rw [← String.append_assoc]
      rfl
    exact ⟨dir.toList, by simp [htext], by rw [String.ofList_toList]⟩

theorem namesOn_inDirectory (h : IsFileName name) :
    namesOn (inDirectory dir name) = namesOn dir ++ [name] := by
  obtain ⟨before, htext, hdir⟩ := exists_toList_inDirectory dir name
  rw [namesOn_of_toList htext, String.ofList_toList, h.namesOn, hdir]

theorem endsWith_inDirectory (h : IsFileName name) :
    (inDirectory dir name).endsWith "/" = false := by
  obtain ⟨before, htext, -⟩ := exists_toList_inDirectory dir name
  rw [Bool.eq_false_iff, ne_eq, endsWith_slash_iff, htext]
  rintro ⟨l, hl⟩
  have hlast := congrArg List.getLast? hl
  have hname : name.toList ≠ [] := by simpa using h.nonempty
  rw [List.getLast?_append_cons, List.getLast?_append_cons,
    List.getLast?_cons_of_ne_nil hname] at hlast
  exact h.slash (List.mem_of_getLast? hlast.symm)

namespace Directory

variable {d d' : Directory} {place place' : List String} {entry : Entry} {dest : Destination}

/-! ## Places -/

theorem entry_put_of_ne (h : place' ≠ place) :
    Directory.entry? (d.put place entry) place' = d.entry? place' := by
  unfold entry? put
  split
  next => rfl
  next =>
    have hfind : d.entries.find? (fun e => decide (e.1 ≠ place) ∧ decide (e.1 = place')) =
        d.entries.find? (fun e => e.1 = place') := by
      congr 1
      funext e
      by_cases he : e.1 = place' <;> simp [he, h]
    rw [List.find?_append, List.find?_filter, hfind]
    simp [h.symm]

theorem entry_put_self (h : d.entry? place ≠ some .directory) :
    Directory.entry? (d.put place entry) place = some entry := by
  unfold entry? at h ⊢
  split at h
  next => exact absurd rfl h
  next hplace =>
    have hfind : d.entries.find? (fun e => decide (e.1 ≠ place) ∧ decide (e.1 = place)) = none := by
      simp
    rw [if_neg hplace, put, List.find?_append, List.find?_filter, hfind]
    simp

/-- All directories stay where they are. -/
def Keeps (d d' : Directory) : Prop :=
  ∀ place, d.entry? place = some .directory → d'.entry? place = some .directory

theorem keeps_put (h : d.entry? place ≠ some .directory) : d.Keeps (d.put place entry) := by
  intro place' hplace'
  rwa [entry_put_of_ne]
  rintro rfl
  exact h hplace'

theorem Keeps.enter (h : d.Keeps d') {next : List String} (hok : d.enter place name = .ok next) :
    d'.enter place name = .ok next := by
  unfold Directory.enter at hok ⊢
  split at hok
  next hhere => rwa [if_pos hhere]
  next hhere =>
    rw [if_neg hhere]
    split at hok
    next hup => rwa [if_pos hup]
    next hup =>
      rw [if_neg hup]
      split at hok
      next => cases hok
      next hlong =>
        rw [if_neg hlong]
        split at hok
        next hdir => rwa [h _ hdir]
        next => cases hok
        next => cases hok

theorem Keeps.follow (h : d.Keeps d') {slash : Bool} {names : List String}
    (hok : d.follow slash place names = .ok dest) : d'.follow slash place names = .ok dest := by
  induction names generalizing place with
  | nil => exact hok
  | cons name names ih =>
    cases names with
    | nil => exact hok
    | cons next names =>
      rw [Directory.follow] at hok ⊢
      · obtain ⟨place', henter, hok⟩ := exists_of_bind_eq_ok hok
        rw [h.enter henter]
        exact ih hok
      · simp
      · simp

theorem Keeps.destination (h : d.Keeps d') (hok : d.destination path = .ok dest) :
    d'.destination path = .ok dest := by
  unfold Directory.destination at hok ⊢
  split at hok
  next => cases hok
  next hempty =>
    rw [if_neg hempty]
    split at hok
    next => cases hok
    next hlong =>
      rw [if_neg hlong]
      exact h.follow hok

/-! ## Contents -/

/-- The path leads to a file with this content. -/
def Holds (d : Directory) (path content : String) : Prop :=
  ∃ place, d.destination path = .ok (.entry place false) ∧ hasLongName place = false ∧
    d.entry? place = some (.file content.toUTF8)

theorem Holds.read (h : d.Holds path content) : d.read path = .ok content := by
  obtain ⟨place, hdest, hlong, hfile⟩ := h
  have htext : String.fromUTF8? content.toByteArray = some content := dif_pos content.isValidUTF8
  rw [Directory.read, hdest]
  show (if hasLongName place then _ else _) = _
  rw [hlong, if_neg Bool.false_ne_true, hfile]
  simp [htext]

theorem of_write (h : d.write path content = .ok d') : ∃ place,
    d.destination path = .ok (.entry place false) ∧ hasLongName place = false ∧
      d.entry? place ≠ some .directory ∧ d' = d.put place (.file content.toUTF8) := by
  obtain ⟨dest, hdest, h⟩ := exists_of_bind_eq_ok h
  cases dest with
  | directory => cases h
  | entry place slash =>
    cases slash with
    | true => cases h
    | false =>
      cases hlong : hasLongName place with
      | true => simp [hlong] at h
      | false =>
        simp only [hlong, Bool.false_eq_true, if_false] at h
        split at h
        next => cases h
        next hentry => exact ⟨place, hdest, hlong, hentry, (Except.ok.inj h).symm⟩

theorem holds_of_write (h : d.write path content = .ok d') : d'.Holds path content := by
  obtain ⟨place, hdest, hlong, hentry, rfl⟩ := of_write h
  exact ⟨place, (keeps_put hentry).destination hdest, hlong, entry_put_self hentry⟩

/-- Can a file be written there? -/
def isFree (d : Directory) (path : String) : Bool :=
  match d.destination path with
  | .ok (.entry place false) => !hasLongName place && !( d.entry? place matches some .directory)
  | _ => false

theorem isFree_iff : d.isFree path = true ↔ ∃ place,
    d.destination path = .ok (.entry place false) ∧ hasLongName place = false ∧
      d.entry? place ≠ some .directory := by
  unfold isFree
  split
  next place hdest =>
    cases hentry : d.entry? place with
    | none => simp [hdest, hentry]
    | some entry => cases entry <;> simp [hdest, hentry]
  next hdest => simpa using fun place h => absurd h (hdest place)

theorem exists_write_of_isFree (content : String) (h : d.isFree path = true) :
    ∃ d', d.write path content = .ok d' := by
  obtain ⟨place, hdest, hlong, hentry⟩ := isFree_iff.1 h
  refine ⟨d.put place (.file content.toUTF8), ?_⟩
  rw [Directory.write, hdest]
  show (if hasLongName place then _ else _) = _
  rw [hlong, if_neg Bool.false_ne_true]
  split
  next hdir => exact absurd hdir hentry
  next => rfl

theorem isFree_write {path' : String} (hok : d.write path' content = .ok d')
    (h : d.isFree path = true) : d'.isFree path = true := by
  obtain ⟨place, hdest, hlong, hentry⟩ := isFree_iff.1 h
  obtain ⟨place', -, -, hentry', rfl⟩ := of_write hok
  refine isFree_iff.2 ⟨place, (keeps_put hentry').destination hdest, hlong, ?_⟩
  by_cases hplace : place = place'
  · rw [hplace, entry_put_self hentry']
    simp
  · rwa [entry_put_of_ne hplace]

theorem exists_place (h : IsFileName name) {names : List String} {slash : Bool}
    (hok : d.follow slash place (names ++ [name]) = .ok dest) :
    ∃ base, dest = .entry (base ++ [name]) slash := by
  induction names generalizing place with
  | nil =>
    rw [List.nil_append, Directory.follow, if_neg h.here, if_neg h.up] at hok
    exact ⟨place, (Except.ok.inj hok).symm⟩
  | cons first names ih =>
    obtain ⟨next, rest, hrest⟩ := List.exists_cons_of_ne_nil (l := names ++ [name]) (by simp)
    rw [List.cons_append, hrest, Directory.follow, ← hrest] at hok
    · obtain ⟨place', -, hok⟩ := exists_of_bind_eq_ok hok
      exact ih hok
    · simp

/-- The last name of a file's place is its own. -/
theorem exists_place_inDirectory (h : IsFileName name) {dest : Destination}
    (hok : d.destination (inDirectory dir name) = .ok dest) :
    ∃ base, dest = .entry (base ++ [name]) false := by
  unfold Directory.destination at hok
  split at hok
  next => cases hok
  next =>
    split at hok
    next => cases hok
    next =>
      rw [namesOn_inDirectory h, endsWith_inDirectory h] at hok
      exact exists_place h hok

/-- A file stays as it is when one of another name is written. -/
theorem Holds.write {name' content' : String} (h : d.Holds (inDirectory dir name) content)
    (hname : IsFileName name) (hname' : IsFileName name') (hne : name ≠ name')
    (hok : d.write (inDirectory dir name') content' = .ok d') :
    d'.Holds (inDirectory dir name) content := by
  obtain ⟨place, hdest, hlong, hfile⟩ := h
  obtain ⟨place', hdest', -, hentry, rfl⟩ := of_write hok
  refine ⟨place, (keeps_put hentry).destination hdest, hlong, ?_⟩
  rw [entry_put_of_ne, hfile]
  rintro rfl
  obtain ⟨base, hbase⟩ := exists_place_inDirectory hname hdest
  obtain ⟨base', hbase'⟩ := exists_place_inDirectory hname' hdest'
  rw [(Destination.entry.inj hbase).1] at hbase'
  have hlast := congrArg List.getLast? (Destination.entry.inj hbase').1
  rw [List.getLast?_concat, List.getLast?_concat] at hlast
  exact hne (Option.some.inj hlast)

end Directory

/-! ## All drawings -/

section

open Directory

variable {d d' : Directory} {drawings : List (String × String)}

/-- The drawings as they are written. -/
def inside (dir : String) (drawings : List (String × String)) : List (String × String) :=
  drawings.map fun (name, text) => (inDirectory dir name, text)

theorem run_writeAll_cons {rest : List (String × String)} :
    (writeAll files ((path, content) :: rest)).run d =
      match d.write path content with
      | .ok d₁ => (writeAll files rest).run d₁
      | .error e => (some (.unwritable path e.text), d) := by
  cases hw : d.write path content with
  | ok d₁ => simp [writeAll, files, change, StateT.run_bind, hw]
  | error e =>
    simp only [writeAll, files, change, StateT.run_bind, StateT.run_get, pure_bind, hw]
    rfl

theorem exists_write (h : (writeAll files ((path, content) :: drawings)).run d = (none, d')) :
    ∃ d₁, d.write path content = .ok d₁ ∧ (writeAll files drawings).run d₁ = (none, d') := by
  rw [run_writeAll_cons] at h
  cases hw : d.write path content with
  | error e =>
    rw [hw] at h
    cases h
  | ok d₁ =>
    rw [hw] at h
    exact ⟨d₁, rfl, h⟩

/-- A file stays as it is when others are written. -/
theorem holds_writeAll_of_notMem (h : d.Holds (inDirectory dir name) content)
    (hname : IsFileName name) (hnames : ∀ x ∈ drawings, IsFileName x.1)
    (hout : name ∉ drawings.map (·.1))
    (hok : (writeAll files (inside dir drawings)).run d = (none, d')) :
    d'.Holds (inDirectory dir name) content := by
  induction drawings generalizing d with
  | nil =>
    obtain rfl : d = d' := (Prod.mk.inj hok).2
    exact h
  | cons x drawings ih =>
    rw [List.map_cons, List.mem_cons, not_or] at hout
    obtain ⟨d₁, hwrite, hok⟩ := exists_write hok
    have hfirst := h.write hname (hnames x List.mem_cons_self) hout.1 hwrite
    exact ih hfirst (fun y hy => hnames y (List.mem_cons_of_mem _ hy)) hout.2 hok

/-- Of files with different names each is written and then kept. -/
theorem holds_writeAll (hnames : ∀ x ∈ drawings, IsFileName x.1)
    (hnodup : (drawings.map (·.1)).Nodup)
    (hok : (writeAll files (inside dir drawings)).run d = (none, d')) :
    ∀ x ∈ drawings, d'.Holds (inDirectory dir x.1) x.2 := by
  induction drawings generalizing d with
  | nil => simp
  | cons x drawings ih =>
    obtain ⟨d₁, hwrite, hok⟩ := exists_write hok
    have hrest : ∀ y ∈ drawings, IsFileName y.1 := fun y hy => hnames y (List.mem_cons_of_mem _ hy)
    rw [List.map_cons, List.nodup_cons] at hnodup
    intro y hy
    rcases List.mem_cons.1 hy with hfirst | hy
    · rw [hfirst]
      exact holds_writeAll_of_notMem (holds_of_write hwrite) (hnames x List.mem_cons_self) hrest
        hnodup.1 hok
    · exact ih hrest hnodup.2 hok y hy

/-- Files can be written where each is no directory's and has a name of its own. -/
theorem exists_run_writeAll (h : ∀ x ∈ drawings, d.isFree (inDirectory dir x.1) = true) :
    ∃ d', (writeAll files (inside dir drawings)).run d = (none, d') := by
  induction drawings generalizing d with
  | nil => exact ⟨d, rfl⟩
  | cons x drawings ih =>
    obtain ⟨d₁, hwrite⟩ := exists_write_of_isFree x.2 (h x List.mem_cons_self)
    obtain ⟨d', hrest⟩ := ih fun y hy => isFree_write hwrite (h y (List.mem_cons_of_mem _ hy))
    refine ⟨d', ?_⟩
    show (writeAll files ((inDirectory dir x.1, x.2) :: inside dir drawings)).run d = _
    rw [run_writeAll_cons, hwrite]
    exact hrest

theorem exists_writeAll {s : Session} (h : (dump files dir s).run d = (none, d')) :
    ∃ d₁ drawings, s.drawings = .ok drawings ∧
      (writeAll files (inside dir drawings)).run d₁ = (none, d') := by
  unfold dump at h
  rw [StateT.run_bind] at h
  generalize (createDirectories files dir).run d = made at h
  obtain ⟨failed, d₁⟩ := made
  cases failed with
  | some e =>
    have h : (some (Failure.unwritable dir e.text), d₁) = (none, d') := h
    cases h
  | none =>
    cases hdrawings : s.drawings with
    | error f =>
      simp only [hdrawings] at h
      cases h
    | ok drawings =>
      simp only [hdrawings] at h
      exact ⟨d₁, drawings, rfl, h⟩

/-- Drawings are written where the directory can be made and the files can be written. -/
theorem exists_run_dump {s : Session} (hdrawings : s.drawings = .ok drawings)
    (hmade : ((createDirectories files dir).run d).1 = none)
    (h : ∀ x ∈ drawings,
      ((createDirectories files dir).run d).2.isFree (inDirectory dir x.1) = true) :
    ∃ d', (dump files dir s).run d = (none, d') := by
  obtain ⟨d', hwrite⟩ := exists_run_writeAll h
  refine ⟨d', ?_⟩
  unfold dump
  rw [StateT.run_bind]
  generalize (createDirectories files dir).run d = made at hmade hwrite
  obtain ⟨failed, d₁⟩ := made
  obtain rfl : failed = none := hmade
  simp only [hdrawings]
  exact hwrite

end

/-! ## The names -/

theorem notMem_intercalate {c sep : Char} {words : List (List Char)} (hsep : c ≠ sep)
    (h : ∀ word ∈ words, c ∉ word) : c ∉ [sep].intercalate words := by
  induction words with
  | nil => simp
  | cons word words ih =>
    have hrest := ih fun other hother => h other (List.mem_cons_of_mem _ hother)
    cases words with
    | nil => simpa using h
    | cons next words =>
      rw [List.intercalate_cons_cons]
      simp only [List.mem_append, List.mem_singleton, not_or]
      exact ⟨⟨h word List.mem_cons_self, hsep⟩, hrest⟩

theorem slash_notMem_nameAt (kind : ScopeKind) (path : Path) :
    '/' ∉ (kind.nameAt path).toList := by
  have htext : '/' ∉ kind.text.toList := by rcases kind with _ | _ | _ | _ <;> decide +kernel
  rw [ScopeKind.toList_nameAt, List.mem_append, not_or]
  refine ⟨htext, ?_⟩
  split
  next => exact List.not_mem_nil
  next =>
    rw [List.mem_cons, not_or]
    refine ⟨by decide, notMem_intercalate (by decide) fun digits hdigits hslash => ?_⟩
    obtain ⟨i, -, rfl⟩ := List.mem_map.1 hdigits
    exact absurd (isDigit_toDigits hslash) (by decide)

theorem isFileName_dot (h : '/' ∉ name.toList) : IsFileName (name ++ ".dot") := by
  have hshort : ∀ other : String, other.length < 4 → name ++ ".dot" ≠ other := by
    intro other hother heq
    have hlen := congrArg String.length heq
    have hdot : ".dot".length = 4 := rfl
    rw [String.length_append] at hlen
    omega
  refine ⟨hshort _ (by decide), ?_, hshort _ (by decide), hshort _ (by decide)⟩
  rw [String.toList_append, List.mem_append, not_or]
  exact ⟨h, by decide⟩

variable {s : Session} {t : ScopeTree}

theorem exists_of_dotFiles {p : Program} {drawings : List (String × String)}
    (h : t.dotFiles p = .ok drawings) : ∃ whole, t.dot p = .ok whole ∧
      drawings = ("graph.dot", whole) :: t.entries.map fun (path, s) =>
        (s.kind.nameAt path ++ ".dot", s.dot (s.kind.nameAt path)) := by
  obtain ⟨whole, hwhole, h⟩ := exists_of_bind_eq_ok h
  exact ⟨whole, hwhole, (Except.ok.inj h).symm⟩

theorem isFileName_of_dotFiles {p : Program} {drawings : List (String × String)}
    (h : t.dotFiles p = .ok drawings) : ∀ x ∈ drawings, IsFileName x.1 := by
  obtain ⟨whole, -, rfl⟩ := exists_of_dotFiles h
  rw [List.forall_mem_cons]
  refine ⟨isFileName_dot (show '/' ∉ "graph".toList by decide), fun x hx => ?_⟩
  obtain ⟨⟨path, r⟩, -, rfl⟩ := List.mem_map.1 hx
  exact isFileName_dot (slash_notMem_nameAt r.kind path)

theorem nodup_names_of_dotFiles {p : Program} {drawings : List (String × String)}
    (h : t.dotFiles p = .ok drawings) : (drawings.map (·.1)).Nodup := by
  obtain ⟨whole, -, rfl⟩ := exists_of_dotFiles h
  have hgraph : "graph.dot" = "graph" ++ ".dot" := rfl
  rw [List.map_cons, List.map_map, List.nodup_cons]
  refine ⟨fun hmem => ?_, ?_⟩
  · obtain ⟨⟨path, r⟩, -, hname⟩ := List.mem_map.1 hmem
    exact r.kind.nameAt_ne_graph path (String.append_left_inj _ |>.1 (hname.trans hgraph))
  · have hpaths := t.nodup_paths
    rw [List.Nodup, List.pairwise_map] at hpaths ⊢
    refine hpaths.imp fun hne heq => hne ?_
    exact (ScopeKind.nameAt_inj (String.append_left_inj _ |>.1 heq)).2

/-! ## Both -/

/-- The stack meets every scope once, each with its path and in ascending order of the paths.  Names
of scopes tell them apart, and where the drawings have been written each can be read back from the
file of its scope, and that of the whole tree from its own. -/
theorem dump_exact (t : ScopeTree) :
    Turns (fun _ => true) Tree.pushChildren (start [([], t)]) ⟨[], t.subtrees⟩ ∧
    t.subtrees.map (fun e => (e.1, e.2.root)) = t.entries ∧
    (∀ path u, (path, u) ∈ t.subtrees ↔ t.at? path = some u) ∧
    (t.subtrees.map (·.1)).Pairwise (· < ·) ∧
    (∀ (kind kind' : ScopeKind) (path path' : Path),
      kind.nameAt path = kind'.nameAt path' ↔ kind = kind' ∧ path = path') ∧
    (∀ (kind : ScopeKind) (path : Path), kind.nameAt path ≠ "graph") ∧
    ∀ (s : Session) (dir : String) (d d' : Directory), s.latest? = some t →
      (dump Directory.files dir s).run d = (none, d') →
      (∃ whole, t.dot s.program = .ok whole ∧ d'.read (inDirectory dir "graph.dot") = .ok whole) ∧
      ∀ path u, t.at? path = some u → let name := u.root.kind.nameAt path
        d'.read (inDirectory dir (name ++ ".dot")) = .ok (u.root.dot name) := by
  refine ⟨t.turns_subtrees, t.map_subtrees, fun path u => Tree.mem_subtrees_iff, ?_, ?_,
    ScopeKind.nameAt_ne_graph, ?_⟩
  · have hpaths := t.pairwise_entries
    rw [← t.map_subtrees, List.map_map] at hpaths
    exact hpaths
  · intro kind kind' path path'
    refine ⟨ScopeKind.nameAt_inj, ?_⟩
    rintro ⟨rfl, rfl⟩
    rfl
  · intro s dir d d' hlatest hdump
    obtain ⟨d₁, drawings, hdrawings, hwrite⟩ := exists_writeAll hdump
    rw [Session.drawings, hlatest] at hdrawings
    have hholds := holds_writeAll (isFileName_of_dotFiles hdrawings)
      (nodup_names_of_dotFiles hdrawings) hwrite
    obtain ⟨whole, hwhole, rfl⟩ := exists_of_dotFiles hdrawings
    refine ⟨⟨whole, hwhole, (hholds _ List.mem_cons_self).read⟩, fun path u hu => ?_⟩
    have hentry : (path, u.root) ∈ t.entries := Tree.mem_entries_iff.2 (by rw [Tree.get?, hu]; rfl)
    exact (hholds _ (List.mem_cons_of_mem _ (List.mem_map.2 ⟨_, hentry, rfl⟩))).read

/-- Two launches, in the second of them a segment with two herds. -/
def twoLaunches : String := "func @f(%m: memref<1, L1>) \x7b
  %a = launch args(%x = %m) \x7b
    %p = put @c %x
  \x7d
  %b = launch [%a] args(%y = %m) \x7b
    %s = segment args(%z = %y) \x7b
      %h = herd args(%w = %z) \x7b
        %g = get @c %w
      \x7d
      %k = herd [%h] args(%v = %z) \x7b
        %j = join
      \x7d
    \x7d
  \x7d
\x7d
"

theorem dump_exact_twoLaunches : ∃ (s : Session) (t : ScopeTree) (d : Directory),
    s.latest? = some t ∧
    t.entries.map (fun (path, r) => (path, r.kind.nameAt path)) =
      [([], "host"), ([0], "launch_1"), ([1], "launch_2"), ([1, 0], "segment_2.1"),
        ([1, 0, 0], "herd_2.1.1"), ([1, 0, 1], "herd_2.1.2")] ∧
    (dump Directory.files "dots/" s).run ⟨[]⟩ = (none, d) ∧
    ∀ path u, t.at? path = some u →
      d.read (inDirectory "dots/" (u.root.kind.nameAt path ++ ".dot")) =
        .ok (u.root.dot (u.root.kind.nameAt path)) := by
  obtain ⟨p, t, c, -, hbuild, htest⟩ := passes_iff.1 (show passes twoLaunches (fun p t _ =>
    t.entries.map (fun (path, r) => (path, r.kind.nameAt path)) =
      [([], "host"), ([0], "launch_1"), ([1], "launch_2"), ([1, 0], "segment_2.1"),
        ([1, 0, 0], "herd_2.1.1"), ([1, 0, 1], "herd_2.1.2")] ∧
      p.channels = ["c"] ∧ p.Pairs "c") = true by decide +kernel)
  obtain ⟨hnames, hchannels, hpairs⟩ := of_decide_eq_true htest
  let s := (Session.start p .default).build.session
  have hlatest : s.latest? = some t := by
    simp [s, Session.build, Session.start, hbuild, Session.done, Session.latest?]
  have hprogram : s.program = p := by
    simp [s, Session.build, Session.start, hbuild, Session.done]
  obtain ⟨whole, hwhole⟩ : ∃ whole, t.dot p = .ok whole :=
    Tree.exists_dot_iff.2 (hchannels ▸ List.forall_mem_singleton.2 hpairs)
  obtain ⟨drawings, hfiles⟩ : ∃ drawings, t.dotFiles p = .ok drawings :=
    ⟨_, by rw [Tree.dotFiles, hwhole]; rfl⟩
  have hdrawings : s.drawings = .ok drawings := by
    rw [Session.drawings, hlatest, hprogram]
    exact hfiles
  have hfree : ∀ x ∈ drawings, ((createDirectories Directory.files "dots/").run ⟨[]⟩).2.isFree
      (inDirectory "dots/" x.1) = true := by
    obtain ⟨_, -, rfl⟩ := exists_of_dotFiles hfiles
    have hall : ∀ name ∈ "graph.dot" :: (t.entries.map fun (path, s) =>
        (path, s.kind.nameAt path)).map (·.2 ++ ".dot"),
        ((createDirectories Directory.files "dots/").run ⟨[]⟩).2.isFree
          (inDirectory "dots/" name) = true := by
      rw [hnames]
      decide +kernel
    rw [List.map_map] at hall
    rw [List.forall_mem_cons, List.forall_mem_map] at hall ⊢
    exact hall
  obtain ⟨d, hdump⟩ := exists_run_dump hdrawings (by decide +kernel) hfree
  obtain ⟨-, -, -, -, -, -, hdumped⟩ := dump_exact t
  exact ⟨s, t, d, hlatest, hnames, hdump, (hdumped s _ _ d hlatest hdump).2⟩

end AsyncOrder
