import Mathlib.Data.List.Basic
import Signoff.CommandLine.Invocation

/-!
# Arguments that are paths, and those that are not

Arguments are read in two steps, first one after another into items and then all
of the items at once into an invocation. The second step takes paths from the
items and values of options, and neither of the two minds where the others stand
(`ofItems_of_optionsOf_eq`). So paths may be written before the options or, with
two dashes in between, behind them, and both say the same.
-/

namespace Signoff.CommandLine

variable {name path : String} {names options rest : List String}
  {i : Invocation} {items : List Item}

section Except

variable {ε α β : Type} {x : Except ε α} {b : β}

theorem bind_eq_ok_iff {f : α → Except ε β} :
    x.bind f = .ok b ↔ ∃ a, x = .ok a ∧ f a = .ok b := by
  cases x with
  | error e => simp [Except.bind]
  | ok a => simp [Except.bind]

theorem map_eq_ok_iff {f : α → β} :
    x.map f = .ok b ↔ ∃ a, x = .ok a ∧ f a = b := by
  cases x with
  | error e => simp [Except.map]
  | ok a => simp [Except.map]

end Except

/-- The name can stand among the arguments and is taken for a path there. -/
def IsPositional (name : String) : Prop :=
  readArguments none [name] = .ok [.path name]

instance (name : String) : Decidable (IsPositional name) :=
  inferInstanceAs (Decidable (_ = _))

theorem readArguments_cons (h : name ≠ "--") (rest : List String) :
    readArguments none (name :: rest) = (readArgument name).bind fun reading =>
      (readArguments reading.2 rest).map (reading.1 ++ ·) := by
  rw [readArguments, if_neg h]
  cases readArgument name with
  | error e => rfl
  | ok reading =>
      show (do return reading.1 ++ (← readArguments reading.2 rest)) =
        (readArguments reading.2 rest).map (reading.1 ++ ·)
      cases readArguments reading.2 rest <;> rfl

theorem readArguments_some_cons {switch : Switch}
    (h : looksLikeOption name = false) (rest : List String) :
    readArguments (some switch) (name :: rest) =
      (valueItem switch name).bind fun item =>
        (readArguments none rest).map (item :: ·) := by
  rw [readArguments, h]
  cases valueItem switch name with
  | error e => rfl
  | ok item => cases readArguments none rest <;> rfl

theorem readArgument_of_isPositional (h : IsPositional name) :
    name ≠ "--" ∧ readArgument name = .ok ([.path name], none) := by
  have hdashes : name ≠ "--" := by
    rintro rfl
    exact absurd h (by decide)
  refine ⟨hdashes, ?_⟩
  rw [IsPositional, readArguments_cons hdashes, bind_eq_ok_iff] at h
  obtain ⟨⟨items, pending?⟩, hread, hrest⟩ := h
  cases pending? with
  | some switch => cases hrest
  | none =>
      have hitems : items ++ [] = [.path name] := Except.ok.inj hrest
      rw [hread, ← hitems, List.append_nil]

theorem readArguments_names_append (hread : readArguments none rest = .ok items)
    (h : ∀ name ∈ names, IsPositional name) :
    readArguments none (names ++ rest) = .ok (names.map .path ++ items) := by
  induction names with
  | nil => exact hread
  | cons name names ih =>
      obtain ⟨hname, hnames⟩ := List.forall_mem_cons.1 h
      obtain ⟨hdashes, hpath⟩ := readArgument_of_isPositional hname
      rw [List.cons_append, readArguments_cons hdashes, hpath]
      show (readArguments none (names ++ rest)).map ([.path name] ++ ·) = _
      rw [ih hnames]
      rfl

theorem mapM_pathItem (h : ∀ name ∈ names, name ≠ "") :
    names.mapM pathItem = .ok (names.map .path) := by
  induction names with
  | nil => rfl
  | cons name names ih =>
      obtain ⟨hname, hnames⟩ := List.forall_mem_cons.1 h
      have hpath : pathItem name = .ok (.path name) := by
        simp [pathItem, hname]
      rw [List.mapM_cons, hpath, ih hnames]
      rfl

/-- After two dashes everything is a path. -/
theorem readArguments_append_dashes {pending? : Option Switch}
    (hread : readArguments pending? options = .ok items)
    (hdashes : "--" ∉ options) (h : ∀ name ∈ names, name ≠ "") :
    readArguments pending? (options ++ "--" :: names) =
      .ok (items ++ names.map .path) := by
  induction options generalizing pending? items with
  | nil =>
      cases pending? with
      | some switch => cases hread
      | none =>
          cases hread
          rw [List.nil_append, readArguments, if_pos rfl, mapM_pathItem h]
          rfl
  | cons argument rest ih =>
      obtain ⟨hargument, hrest⟩ := not_or.1 (mt List.mem_cons.2 hdashes)
      rw [List.cons_append]
      cases pending? with
      | some switch =>
          cases hlooks : looksLikeOption argument with
          | true =>
              rw [readArguments, hlooks] at hread
              cases hread
          | false =>
              rw [readArguments_some_cons hlooks, bind_eq_ok_iff] at hread
              obtain ⟨item, hvalue, hread⟩ := hread
              obtain ⟨later, hlater, rfl⟩ := map_eq_ok_iff.1 hread
              rw [readArguments_some_cons hlooks, hvalue]
              exact map_eq_ok_iff.2 ⟨_, ih hlater hrest, rfl⟩
      | none =>
          rw [readArguments_cons (Ne.symm hargument), bind_eq_ok_iff] at hread
          obtain ⟨reading, hreading, hread⟩ := hread
          obtain ⟨later, hlater, rfl⟩ := map_eq_ok_iff.1 hread
          rw [readArguments_cons (Ne.symm hargument), hreading]
          refine map_eq_ok_iff.2 ⟨_, ih hlater hrest, ?_⟩
          rw [List.append_assoc]

theorem readArguments_filesFrom (hread : readArguments none rest = .ok items)
    (hne : path ≠ "") (hlooks : looksLikeOption path = false) :
    readArguments none ("--files-from" :: path :: rest) =
      .ok (.option .filesFrom path :: items) := by
  have hname : readArgument "--files-from" = .ok ([], some .filesFrom) := by
    decide
  have hvalue : valueItem .filesFrom path = .ok (.option .filesFrom path) := by
    simp [valueItem, hne]
  rw [readArguments_cons (by decide), hname]
  show (readArguments (some .filesFrom) (path :: rest)).map ([] ++ ·) = _
  rw [readArguments_some_cons hlooks, hvalue, hread]
  rfl

/-- The invocation with the changed files named in another way. -/
def Invocation.naming (i : Invocation) (paths : List String)
    (listPath? : Option String) : Invocation :=
  { i with paths := paths, listPath? := listPath? }

theorem listPath?_of_ofItems (h : Invocation.ofItems items = .ok i) :
    i.listPath? = (valuesOf items .filesFrom).head? := by
  have hvalue : valueOf? items .filesFrom some =
      .ok (valuesOf items .filesFrom).head? := by
    rw [valueOf?]
    cases valuesOf items .filesFrom <;> rfl
  have hmap : Invocation.listPath? <$> Invocation.ofItems items =
      (fun _ => (valuesOf items .filesFrom).head?) <$>
        Invocation.ofItems items := by
    simp only [Invocation.ofItems, map_bind, map_pure, hvalue]
    rfl
  rw [h] at hmap
  exact Except.ok.inj hmap

theorem ofItems_filesFrom (h : Invocation.ofItems items = .ok i)
    (hnone : i.listPath? = none) (path : String) :
    Invocation.ofItems (.option .filesFrom path :: items) =
      .ok (i.naming i.paths (some path)) := by
  have hvalues : valuesOf items .filesFrom = [] := by
    rw [← List.head?_eq_none_iff, ← listPath?_of_ofItems h, hnone]
  have hcheck : checkRepetitions (.option .filesFrom path :: items) =
      checkRepetitions items := by
    rw [checkRepetitions, hvalues]
    rfl
  have hnew : valueOf? (.option .filesFrom path :: items) .filesFrom some =
      .ok (some path) := rfl
  have hold : valueOf? items .filesFrom some = .ok none := by
    rw [valueOf?, hvalues]
  have hmap : Invocation.ofItems (.option .filesFrom path :: items) =
      (fun i => i.naming i.paths (some path)) <$>
        Invocation.ofItems items := by
    simp only [Invocation.ofItems, map_bind, map_pure, hcheck, hnew, hold]
    rfl
  rw [hmap, h]
  rfl

/-- The paths among some items. -/
def pathsOf (items : List Item) : List String :=
  items.filterMap fun
    | .path path => some path
    | .option _ _ => none

/-- The items that are not paths. -/
def optionsOf (items : List Item) : List Item :=
  items.filter fun
    | .path _ => false
    | .option _ _ => true

theorem valuesOf_optionsOf (items : List Item) (switch : Switch) :
    valuesOf (optionsOf items) switch = valuesOf items switch := by
  rw [valuesOf, optionsOf, List.filterMap_filter]
  refine List.filterMap_congr fun item _ => ?_
  cases item <;> rfl

theorem checkRepetitions_optionsOf (items : List Item) :
    checkRepetitions (optionsOf items) = checkRepetitions items := by
  induction items with
  | nil => rfl
  | cons item items ih =>
      cases item with
      | path path => exact ih
      | option switch value =>
          have hvalues := valuesOf_optionsOf items switch
          show checkRepetitions (.option switch value :: optionsOf items) = _
          rw [checkRepetitions, checkRepetitions, hvalues, ih]

theorem paths_of_ofItems (h : Invocation.ofItems items = .ok i) :
    i.paths = pathsOf items := by
  have hmap : Invocation.paths <$> Invocation.ofItems items =
      (fun _ => pathsOf items) <$> Invocation.ofItems items := by
    simp only [Invocation.ofItems, map_bind, map_pure]
    rfl
  rw [h] at hmap
  exact Except.ok.inj hmap

/-- Where the paths stand among the options makes no difference. -/
theorem ofItems_of_optionsOf_eq {others : List Item}
    (h : Invocation.ofItems items = .ok i)
    (hoptions : optionsOf others = optionsOf items) :
    Invocation.ofItems others =
      .ok (i.naming (pathsOf others) i.listPath?) := by
  have hvalues : valuesOf others = valuesOf items := by
    funext switch
    rw [← valuesOf_optionsOf, hoptions, valuesOf_optionsOf]
  have hcheck : checkRepetitions others = checkRepetitions items := by
    rw [← checkRepetitions_optionsOf, hoptions, checkRepetitions_optionsOf]
  have hmap : Invocation.ofItems others =
      (fun i => i.naming (pathsOf others) i.listPath?) <$>
        Invocation.ofItems items := by
    simp only [Invocation.ofItems, map_bind, map_pure, valueOf?, hvalues,
      hcheck]
    rfl
  rw [hmap, h]
  rfl

theorem exists_items_of_ofArguments
    (h : Invocation.ofArguments options = .ok i) :
    ∃ items, readArguments none options = .ok items ∧
      Invocation.ofItems items = .ok i :=
  bind_eq_ok_iff.1 h

theorem pathsOf_append (items more : List Item) :
    pathsOf (items ++ more) = pathsOf items ++ pathsOf more :=
  List.filterMap_append

theorem optionsOf_append (items more : List Item) :
    optionsOf (items ++ more) = optionsOf items ++ optionsOf more :=
  List.filter_append items more

theorem pathsOf_map_path (names : List String) :
    pathsOf (names.map .path) = names := by
  rw [pathsOf, List.filterMap_map]
  exact List.filterMap_some

theorem optionsOf_map_path (names : List String) :
    optionsOf (names.map .path) = [] := by
  rw [optionsOf, List.filter_eq_nil_iff, List.forall_mem_map]
  exact fun _ _ => Bool.false_ne_true

theorem ofArguments_names_append (h : Invocation.ofArguments options = .ok i)
    (hpaths : i.paths = []) (hnames : ∀ name ∈ names, IsPositional name) :
    Invocation.ofArguments (names ++ options) =
      .ok (i.naming names i.listPath?) := by
  obtain ⟨items, hread, hitems⟩ := exists_items_of_ofArguments h
  have hpathsOf : pathsOf (names.map .path ++ items) = names := by
    rw [pathsOf_append, pathsOf_map_path, ← paths_of_ofItems hitems, hpaths,
      List.append_nil]
  refine bind_eq_ok_iff.2 ⟨_, readArguments_names_append hread hnames, ?_⟩
  rw [ofItems_of_optionsOf_eq hitems, hpathsOf]
  rw [optionsOf_append, optionsOf_map_path, List.nil_append]

theorem ofArguments_append_dashes (h : Invocation.ofArguments options = .ok i)
    (hpaths : i.paths = []) (hdashes : "--" ∉ options)
    (hnames : ∀ name ∈ names, name ≠ "") :
    Invocation.ofArguments (options ++ "--" :: names) =
      .ok (i.naming names i.listPath?) := by
  obtain ⟨items, hread, hitems⟩ := exists_items_of_ofArguments h
  have hpathsOf : pathsOf (items ++ names.map .path) = names := by
    rw [pathsOf_append, pathsOf_map_path, ← paths_of_ofItems hitems, hpaths,
      List.nil_append]
  refine bind_eq_ok_iff.2
    ⟨_, readArguments_append_dashes hread hdashes hnames, ?_⟩
  rw [ofItems_of_optionsOf_eq hitems, hpathsOf]
  rw [optionsOf_append, optionsOf_map_path, List.append_nil]

theorem ofArguments_filesFrom (h : Invocation.ofArguments options = .ok i)
    (hnone : i.listPath? = none) (hne : path ≠ "")
    (hlooks : looksLikeOption path = false) :
    Invocation.ofArguments ("--files-from" :: path :: options) =
      .ok (i.naming i.paths (some path)) := by
  obtain ⟨items, hread, hitems⟩ := exists_items_of_ofArguments h
  exact bind_eq_ok_iff.2 ⟨_, readArguments_filesFrom hread hne hlooks,
    ofItems_filesFrom hitems hnone path⟩

end Signoff.CommandLine
