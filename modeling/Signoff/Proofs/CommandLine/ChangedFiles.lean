import Mathlib.Data.List.DropRight
import Signoff.CommandLine.Execution
import Signoff.Proofs.CommandLine.Arguments
import Signoff.Proofs.Glob.Segments

/-!
# Naming the changed files

Changed files are named as arguments, on the lines of a list, or on those of the
standard input. A list is read the same from wherever it comes, so the last two
ways always agree. An argument is taken for a path, though, and a line is not: a
component `.` at the front of an argument is dropped, and on a line it stays
(`Path.relative_eq_self_iff`). With such a name among them the arguments name
other files than the list does, and with none the whole execution is the same
(`changedFiles_by_any_route`).

The remaining difference is that a list on the standard input uses it up. This
is felt only by rosters that are read from there, too.
-/

namespace Signoff

/-- What is left of a list when both its ends are trimmed. -/
theorem reverse_dropWhile_reverse_sublist {α : Type} (p : α → Bool)
    (l : List α) : ((l.dropWhile p).reverse.dropWhile p).reverse.Sublist l :=
  (List.rdropWhile_prefix p _).sublist.trans (List.dropWhile_sublist p)

/-! ## Paths -/

namespace Path

variable {path : List Char} {parts : List (List Char)}

/-- The path starts with the component `.`. -/
def IsDotted (path : List Char) : Prop := (components path).head? = some ['.']

instance (path : List Char) : Decidable (IsDotted path) :=
  inferInstanceAs (Decidable (_ = _))

theorem isIdle_of_mem_head?_trimIdle :
    ∀ part ∈ (trimIdle parts).head?, isIdle part = false := by
  intro part hpart
  have hhead : part ∈ (parts.dropWhile isIdle).head? := by
    obtain ⟨back, hback⟩ :=
      List.rdropWhile_prefix isIdle (parts.dropWhile isIdle)
    rw [← hback]
    exact List.mem_head?_append_of_mem_head? hpart
  exact Text.not_of_mem_head?_dropWhile part hhead

theorem components_ofComponents (hne : parts ≠ [])
    (hslash : ∀ part ∈ parts, '/' ∉ part) :
    components (ofComponents parts) = parts :=
  List.splitOn_intercalate '/' hslash hne

theorem not_isDotted_relative (path : List Char) :
    ¬ IsDotted (relative path) := by
  rw [relative]
  split
  · next rest hrest =>
      intro hdotted
      by_cases hnil : trimIdle rest = []
      · rw [hnil] at hdotted
        exact absurd hdotted (by decide)
      · rw [IsDotted, components_ofComponents hnil] at hdotted
        · have hidle := isIdle_of_mem_head?_trimIdle _ hdotted
          exact absurd hidle (by decide)
        · intro part hpart
          have hmem : part ∈ path.splitOn '/' := by
            rw [← components, hrest]
            exact List.mem_cons_of_mem _
              ((reverse_dropWhile_reverse_sublist isIdle rest).subset hpart)
          exact Glob.slash_notMem_of_mem_splitOn hmem
  · next hother =>
      intro hdotted
      obtain ⟨rest, hrest⟩ := List.head?_eq_some_iff.1 hdotted
      exact hother rest hrest

theorem relative_eq_self_iff : relative path = path ↔ ¬ IsDotted path := by
  refine ⟨fun heq => heq ▸ not_isDotted_relative path, fun h => ?_⟩
  rw [relative]
  split
  · next rest hrest =>
      refine absurd ?_ h
      rw [IsDotted, hrest]
      rfl
  · rfl

end Path

/-! ## Lists -/

namespace Text

variable {line : List Char}

theorem trim_withoutReturn (line : List Char) :
    trim (withoutReturn line) = trim line := by
  rw [withoutReturn]
  split
  · next hlast =>
      obtain ⟨front, hfront⟩ := List.getLast?_eq_some_iff.1 hlast
      have hreturn : isBlank '\r' = true := by decide
      rw [hfront, List.dropLast_concat, trim, trim, List.dropWhile_append]
      split
      · next hnil =>
          rw [List.isEmpty_iff.1 hnil, List.dropWhile_cons_of_pos hreturn]
          rfl
      · rw [List.reverse_append, List.reverse_singleton, List.singleton_append,
          List.dropWhile_cons_of_pos hreturn]
  · rfl

/-- Text without margins does not end in a carriage return. -/
theorem withoutReturn_of_trim_eq (h : trim line = line) :
    withoutReturn line = line := by
  rw [withoutReturn]
  split
  · next hlast =>
      have hfront := trim_withoutReturn line
      rw [withoutReturn, if_pos hlast, h] at hfront
      have hlength :=
        (reverse_dropWhile_reverse_sublist isBlank line.dropLast).length_le
      rw [← trim, hfront, List.length_dropLast] at hlength
      have hne := List.length_pos_of_mem (List.mem_of_getLast? hlast)
      omega
  · rfl

theorem lines_flatMap_newline {names : List (List Char)}
    (h : ∀ name ∈ names, '\n' ∉ name) :
    lines (names.flatMap (· ++ ['\n'])) = names := by
  have hsplit :
      (names.flatMap (· ++ ['\n'])).splitOn '\n' = names ++ [[]] := by
    induction names with
    | nil => rfl
    | cons name names ih =>
        obtain ⟨hname, hnames⟩ := List.forall_mem_cons.1 h
        rw [List.flatMap_cons, List.append_assoc, List.singleton_append,
          List.splitOn_append_cons_self_of_not_mem hname, ih hnames]
        rfl
  rw [lines, hsplit]
  simp

end Text

namespace CommandLine

variable {name path text : String} {names options : List String}
  {i : Invocation} {s : Surroundings}

/-- The text has just these names on its lines, which may end in carriage
returns. -/
def Lists (text : String) (names : List String) : Prop :=
  (Text.lines text.toList).map Text.withoutReturn = names.map String.toList

instance (text : String) (names : List String) : Decidable (Lists text names) :=
  inferInstanceAs (Decidable (_ = _))

/-- The name can be put on a line of a list. -/
structure IsListable (name : String) : Prop where
  ne_empty : name ≠ ""
  newline_notMem : '\n' ∉ name.toList
  trim_eq : Text.trim name.toList = name.toList

instance (name : String) : Decidable (IsListable name) :=
  decidable_of_iff (name ≠ "" ∧ '\n' ∉ name.toList ∧
      Text.trim name.toList = name.toList)
    ⟨fun ⟨hne, hfeed, htrim⟩ => ⟨hne, hfeed, htrim⟩,
      fun h => ⟨h.ne_empty, h.newline_notMem, h.trim_eq⟩⟩

theorem lists_unlines (h : ∀ name ∈ names, IsListable name) :
    Lists (unlines names) names := by
  have hchars : (unlines names).toList =
      (names.map String.toList).flatMap (· ++ ['\n']) := by
    rw [unlines, String.toList_join, List.flatMap_map, List.flatMap_map]
    simp
  rw [Lists, hchars, Text.lines_flatMap_newline]
  · rw [List.map_map]
    exact List.map_congr_left fun name hname =>
      Text.withoutReturn_of_trim_eq (h name hname).trim_eq
  · rw [List.forall_mem_map]
    exact fun name hname => (h name hname).newline_notMem

theorem listedFiles_of_lists (hlists : Lists text names)
    (h : ∀ name ∈ names, IsListable name) : listedFiles text = names := by
  have htrim : (Text.lines text.toList).map Text.trim =
      names.map String.toList := by
    have hlines := congrArg (List.map Text.trim) hlists
    rw [List.map_map, List.map_map] at hlines
    rw [← List.map_congr_left fun line _ => Text.trim_withoutReturn line]
    refine hlines.trans (List.map_congr_left fun name hname => ?_)
    exact (h name hname).trim_eq
  have hkept : (names.map String.toList).filter (fun line => !line.isEmpty) =
      names.map String.toList := by
    rw [List.filter_eq_self, List.forall_mem_map]
    intro name hname
    have hne := (h name hname).ne_empty
    simpa using hne
  rw [listedFiles, htrim, hkept, List.map_map]
  simp [Function.comp_def]

/-! ## Changed files -/

/-- The path can be the value of an option, and it does not stand for the
standard input. -/
structure IsListPath (path : String) : Prop where
  ne_empty : path ≠ ""
  looksLikeOption_eq : looksLikeOption path = false
  isDash_eq : Path.isDash path.toList = false

theorem readText_of_read (h : s.read path = .ok text.toUTF8) :
    readText s path = .ok text := by
  have htext : (s.read path).text = .ok text := by
    rw [h]
    exact File.decode_toUTF8 text
  rw [readText, htext]
  rfl

theorem changedFiles_paths (i : Invocation) (s : Surroundings)
    (names : List String) :
    changedFiles (i.naming names none) s =
      .ok ((if names = [] then ["."] else names).flatMap (filesAt s)) := by
  cases names <;> rfl

theorem changedFiles_list (i : Invocation) (s : Surroundings) (path : String) :
    changedFiles (i.naming [] (some path)) s = readList s path := by
  show (do return (← readList s path) ++ []) = readList s path
  cases readList s path with
  | error e => rfl
  | ok listed => exact congrArg Except.ok (List.append_nil listed)

theorem changedFiles_list_of_lists (i : Invocation)
    (hdash : Path.isDash path.toList = false)
    (hread : readText s path = .ok text) (hlists : Lists text names)
    (h : ∀ name ∈ names, IsListable name) :
    changedFiles (i.naming [] (some path)) s = .ok names := by
  rw [changedFiles_list, readList, hdash, hread]
  exact congrArg Except.ok (listedFiles_of_lists hlists h)

theorem changedFiles_input_of_lists (i : Invocation)
    (hread : File.decode s.input = .ok text) (hlists : Lists text names)
    (h : ∀ name ∈ names, IsListable name) :
    changedFiles (i.naming [] (some "-")) s = .ok names := by
  rw [changedFiles_list, readList, if_pos (by decide), hread]
  exact congrArg Except.ok (listedFiles_of_lists hlists h)

theorem filesAt_of_filesBelow? (h : s.filesBelow? path = none) :
    filesAt s path = [.ofList (Path.relative path.toList)] := by
  rw [filesAt, h]

theorem flatMap_filesAt (h : ∀ name ∈ names, s.filesBelow? name = none) :
    names.flatMap (filesAt s) =
      names.map fun name => .ofList (Path.relative name.toList) := by
  rw [← List.flatMap_singleton' (names.map _), List.flatMap_map]
  exact List.flatMap_congr fun name hname =>
    filesAt_of_filesBelow? (h name hname)

theorem map_relative_eq_self_iff :
    names.map (fun name => String.ofList (Path.relative name.toList)) = names ↔
      ∀ name ∈ names, ¬ Path.IsDotted name.toList := by
  conv_lhs => rhs; rw [← List.map_id names]
  rw [List.map_inj_left]
  refine forall₂_congr fun name _ => ?_
  rw [← Path.relative_eq_self_iff, id, ← String.toList_inj,
    String.toList_ofList]

/-! ## Executions -/

theorem source_afterReading (s : Surroundings) (path : String) :
    (s.afterReading path).source = s.source := by
  rw [Surroundings.afterReading]
  split <;> rfl

theorem filesBelow?_afterReading (s : Surroundings) (path : String) :
    (s.afterReading path).filesBelow? = s.filesBelow? := by
  rw [Surroundings.afterReading]
  split <;> rfl

theorem source_afterList (i : Invocation) (s : Surroundings) :
    (afterList i s).source = s.source := by
  rw [afterList]
  split
  · rfl
  · split
    · rfl
    · exact source_afterReading s _

theorem readRosters_afterList (i : Invocation)
    (h : ∃ file, s.source path = .file file) :
    readRosters (afterList i s) path = readRosters s path := by
  obtain ⟨file, hfile⟩ := h
  have hread : (afterList i s).read path = s.read path := by
    rw [Surroundings.read, Surroundings.read, source_afterList, hfile]
  rw [readRosters, readRosters, readText, readText, hread]

section Routes

variable {paths otherPaths : List String} {listPath? otherList? : Option String}

theorem answer_naming_congr [Engine] [Clock] {policy : Policy}
    (hfiles : changedFiles (i.naming paths listPath?) s =
      changedFiles (i.naming otherPaths otherList?) s)
    (hrosters : ∀ rosters ∈ i.rostersPath?,
      ∃ file, s.source rosters = .file file) :
    (i.naming paths listPath?).answer policy s =
      (i.naming otherPaths otherList?).answer policy s := by
  rw [Invocation.answer, Invocation.answer, hfiles]
  cases hpath : i.rostersPath? with
  | none => simp only [Invocation.naming, hpath]; rfl
  | some rosters =>
      have hread := hrosters rosters hpath
      simp only [Invocation.naming, hpath, readRosters_afterList _ hread]
      rfl

theorem run_naming_congr [Engine] [Clock]
    (hfiles : changedFiles (i.naming paths listPath?)
        (s.afterReading i.rulesPath) =
      changedFiles (i.naming otherPaths otherList?)
        (s.afterReading i.rulesPath))
    (hrosters : ∀ rosters ∈ i.rostersPath?,
      ∃ file, s.source rosters = .file file) :
    (i.naming paths listPath?).run s =
      (i.naming otherPaths otherList?).run s := by
  have hanswer : ∀ policy,
      (i.naming paths listPath?).answer policy (s.afterReading i.rulesPath) =
        (i.naming otherPaths otherList?).answer policy
          (s.afterReading i.rulesPath) := by
    intro policy
    refine answer_naming_congr hfiles ?_
    rwa [source_afterReading]
  have hrules : ∀ paths listPath?,
      (i.naming paths listPath?).rulesPath = i.rulesPath := fun _ _ => rfl
  simp only [Invocation.run, hrules, hanswer]

end Routes

/-- Names on a list are taken as they stand, whether the list is in a file or on
the standard input. As arguments the same names stand for the same files just
when none of them starts with a component `.`, and then the runs are the same,
unless rosters are to come from the standard input as well. -/
theorem changedFiles_by_any_route [Engine] [Clock] {listed input : String}
    (hoptions : Invocation.ofArguments options = .ok i) (hpaths : i.paths = [])
    (hlist : i.listPath? = none)
    (hnames : ∀ name ∈ names, IsListable name ∧ s.filesBelow? name = none)
    (hpath : IsListPath path)
    (hlisted : readText (s.afterReading i.rulesPath) path = .ok listed)
    (hinput : File.decode (s.afterReading i.rulesPath).input = .ok input)
    (hlists : Lists listed names ∧ Lists input names) :
    let later := s.afterReading i.rulesPath
    let byArguments := i.naming names none
    let byList := i.naming [] (some path)
    let byInput := i.naming [] (some "-")
    (((∀ name ∈ names, IsPositional name) →
        Invocation.ofArguments (names ++ options) = .ok byArguments) ∧
      ("--" ∉ options →
        Invocation.ofArguments (options ++ "--" :: names) = .ok byArguments) ∧
      Invocation.ofArguments ("--files-from" :: path :: options) =
        .ok byList ∧
      Invocation.ofArguments ("--files-from" :: "-" :: options) =
        .ok byInput) ∧
    Lists (unlines names) names ∧
    changedFiles byList later = .ok names ∧
    changedFiles byInput later = .ok names ∧
    changedFiles byArguments later =
      .ok (if names = [] then filesAt later "."
        else names.map fun name => .ofList (Path.relative name.toList)) ∧
    (names ≠ [] → (changedFiles byArguments later = .ok names ↔
      ∀ name ∈ names, ¬ Path.IsDotted name.toList)) ∧
    ((∀ rosters ∈ i.rostersPath?, ∃ file, s.source rosters = .file file) →
      byList.run s = byInput.run s ∧
      (names ≠ [] → (∀ name ∈ names, ¬ Path.IsDotted name.toList) →
        byArguments.run s = byList.run s)) := by
  intro later byArguments byList byInput
  have hlistable : ∀ name ∈ names, IsListable name :=
    fun name hname => (hnames name hname).1
  have hreadList :
      Invocation.ofArguments ("--files-from" :: path :: options) =
        .ok byList := by
    rw [ofArguments_filesFrom hoptions hlist hpath.ne_empty
      hpath.looksLikeOption_eq, hpaths]
  have hreadInput :
      Invocation.ofArguments ("--files-from" :: "-" :: options) =
        .ok byInput := by
    rw [ofArguments_filesFrom hoptions hlist (by decide) (by decide), hpaths]
  have hfromList : changedFiles byList later = .ok names :=
    changedFiles_list_of_lists i hpath.isDash_eq hlisted hlists.1 hlistable
  have hfromInput : changedFiles byInput later = .ok names :=
    changedFiles_input_of_lists i hinput hlists.2 hlistable
  have hfromArguments : changedFiles byArguments later =
      .ok (if names = [] then filesAt later "."
        else names.map fun name => .ofList (Path.relative name.toList)) := by
    rw [changedFiles_paths]
    by_cases hnil : names = []
    · rw [if_pos hnil, if_pos hnil, List.flatMap_singleton]
    · have hnoFolder : ∀ name ∈ names, later.filesBelow? name = none := by
        rw [filesBelow?_afterReading]
        exact fun name hname => (hnames name hname).2
      rw [if_neg hnil, if_neg hnil, flatMap_filesAt hnoFolder]
  have hagree : names ≠ [] → (changedFiles byArguments later = .ok names ↔
      ∀ name ∈ names, ¬ Path.IsDotted name.toList) := by
    intro hne
    rw [hfromArguments, if_neg hne, Except.ok.injEq, map_relative_eq_self_iff]
  refine ⟨⟨fun hpositional => ?_, fun hdashes => ?_, hreadList, hreadInput⟩,
    lists_unlines hlistable, hfromList, hfromInput, hfromArguments, hagree,
    fun hrosters => ⟨?_, fun hne hdots => ?_⟩⟩
  · rw [ofArguments_names_append hoptions hpaths hpositional, hlist]
  · rw [ofArguments_append_dashes hoptions hpaths hdashes
      fun name hname => (hlistable name hname).ne_empty, hlist]
  · exact run_naming_congr (hfromList.trans hfromInput.symm) hrosters
  · exact run_naming_congr (((hagree hne).2 hdots).trans hfromList.symm)
      hrosters

/-- Two names beside an approval, on a list with carriage returns and on one
without. -/
theorem changedFiles_by_any_route_approved :
    let names := ["src/a b.c", "docs//x/"]
    let options := ["-ax", "--format", "json"]
    let s : Surroundings := {
      source := fun path => .file (
        if path = "list" then .ok "src/a b.c\r\ndocs//x/".toUTF8
        else if path = "./CODEOWNERS" then .ok "/src/ @x\n".toUTF8
        else .error .notFound)
      filesBelow? := fun _ => none
      input := "src/a b.c\ndocs//x/\n".toUTF8 }
    (∀ name ∈ names, IsListable name ∧ s.filesBelow? name = none) ∧
    execute ("--files-from" :: "-" :: options) s =
      execute ("--files-from" :: "list" :: options) s ∧
    execute (names ++ options) s =
      execute ("--files-from" :: "list" :: options) s ∧
    execute (options ++ "--" :: names) s =
      execute ("--files-from" :: "list" :: options) s := by
  intro names options s
  have hnames :
      ∀ name ∈ names, IsListable name ∧ s.filesBelow? name = none := by
    decide
  have hoptions : Invocation.ofArguments options = .ok
      ⟨[], none, none, ["x"], [], none, 8, none, .json, false, 0⟩ := by
    decide
  have hinput : File.decode s.input = .ok "src/a b.c\ndocs//x/\n" :=
    File.decode_toUTF8 "src/a b.c\ndocs//x/\n"
  have hrosters : ∀ rosters ∈ (none : Option String),
      ∃ file, s.source rosters = .file file := by
    intro rosters hnone
    cases hnone
  obtain ⟨⟨hbefore, hbehind, hlist, hdash⟩, _, _, _, _, _, hruns⟩ :=
    changedFiles_by_any_route hoptions rfl rfl hnames
      (⟨by decide, by decide, by decide⟩ : IsListPath "list")
      (readText_of_read rfl) hinput ⟨by decide, by decide⟩
  obtain ⟨hlists, hpaths⟩ := hruns hrosters
  have hsame := hpaths (by decide) (by decide)
  simp only [execute, hbefore (by decide), hbehind (by decide), hlist, hdash]
  exact ⟨hnames, hlists.symm, hsame, hsame⟩

/-- The file in the working folder has an owner. An argument that leads to it by
`.` stands for it, and on a list the same name stands for a file that nobody
owns. -/
theorem changedFiles_differ_at_dot :
    let i : Invocation :=
      ⟨[], none, none, [], [], none, 8, none, .text, false, 0⟩
    let s : Surroundings := {
      source := fun path => .file (
        if path = "list" then .ok "./a\n".toUTF8
        else if path = "./CODEOWNERS" then .ok "/a @x\n".toUTF8
        else .error .notFound)
      filesBelow? := fun _ => none
      input := "./a\n".toUTF8 }
    Invocation.ofArguments [] = .ok i ∧
    (IsListable "./a" ∧ IsPositional "./a" ∧ s.filesBelow? "./a" = none) ∧
    readText s "list" = .ok "./a\n" ∧ File.decode s.input = .ok "./a\n" ∧
    Lists "./a\n" ["./a"] ∧
    changedFiles (i.naming ["./a"] none) s = .ok ["a"] ∧
    changedFiles (i.naming [] (some "list")) s = .ok ["./a"] ∧
    changedFiles (i.naming [] (some "-")) s = .ok ["./a"] ∧
    (execute ["./a"] s).output = "[a] @x  needs approval\n    a\n\n" ++
      "1 more approval(s) needed across 1 group(s)\n" ∧
    (execute ["--files-from", "list"] s).output = "(unowned)\n    ./a\n\n" ++
      "no ownership rules apply to this change\n" ∧
    (execute ["--files-from", "-"] s).output = "(unowned)\n    ./a\n\n" ++
      "no ownership rules apply to this change\n" := by
  intro i s
  have hlistable : ∀ name ∈ ["./a"], IsListable name := by decide
  have hlist : readText s "list" = .ok "./a\n" := readText_of_read rfl
  have hinput : File.decode s.input = .ok "./a\n" := File.decode_toUTF8 "./a\n"
  have hlists : Lists "./a\n" ["./a"] := by decide
  exact ⟨by decide, ⟨by decide, by decide, rfl⟩, hlist, hinput, hlists,
    changedFiles_paths i s ["./a"],
    changedFiles_list_of_lists i (by decide) hlist hlists hlistable,
    changedFiles_input_of_lists i hinput hlists hlistable, by decide, by decide,
    by decide⟩

end CommandLine

end Signoff
