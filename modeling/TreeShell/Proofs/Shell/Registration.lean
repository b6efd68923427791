import Mathlib.Data.List.Basic
import TreeShell.Proofs.Shell.Outcome
import TreeShell.Proofs.Text.Words

/-! # What a registry answers

A registry answers to a name with the command that was registered last of those with the name, and
it lists the names it answers to in the order of their code points. A line is dispatched by its
first word and by what the registry answers to that word, so commands of other names, registered
before or after, change nothing of what it does. -/

namespace TreeShell

/-- What can be put into a registry in one go. -/
inductive Registration where
  | one (command : Command)
  | builtins

def Registration.commands : Registration → List Command
  | one command => [command]
  | builtins => Builtin.all

namespace Registry

def add (r : Registry) (x : Registration) : Registry := r.registerAll x.commands

/-- The registry that is filled step by step. -/
def filled (history : List Registration) : Registry := history.foldl add empty

/-- All commands registered so far, in order. -/
def registered (history : List Registration) : List Command :=
  history.flatMap Registration.commands

/-- The command is in the list and after it comes none of its name. -/
def IsLatest (commands : List Command) (c : Command) : Prop :=
  ∃ before after, commands = before ++ c :: after ∧ ∀ d ∈ after, d.name ≠ c.name

variable {r r' : Registry} {commands : List Command} {c : Command} {name line cwd : String}
variable {args : List String} {fs : FileSystem}

theorem registerAll_append (r : Registry) (before after : List Command) :
    r.registerAll (before ++ after) = (r.registerAll before).registerAll after :=
  List.foldl_append

theorem filled_eq (history : List Registration) :
    filled history = empty.registerAll (registered history) := by
  unfold filled registered
  generalize empty = r
  induction history generalizing r with
  | nil => rfl
  | cons x history ih =>
    rw [List.foldl_cons, ih, List.flatMap_cons, registerAll_append]
    rfl

/-! ## The last one of a name -/

theorem find?_reverse_eq_some_iff :
    commands.reverse.find? (·.name == name) = some c ↔ c.name = name ∧ IsLatest commands c := by
  rw [List.find?_eq_some_iff_append, beq_iff_eq]
  refine and_congr_right fun hname => ?_
  subst hname
  constructor
  · rintro ⟨after, before, hsplit, hafter⟩
    refine ⟨before.reverse, after.reverse, ?_, fun d hd => ?_⟩
    · rw [List.reverse_eq_iff.1 hsplit]
      simp
    · simpa using hafter d (List.mem_reverse.1 hd)
  · rintro ⟨before, after, rfl, hafter⟩
    exact ⟨after.reverse, before.reverse, by simp, by simpa using hafter⟩

theorem get?_filled_eq_some_iff {history : List Registration} :
    (filled history).get? name = some c ↔ c.name = name ∧ IsLatest (registered history) c := by
  rw [filled_eq, get?_registerAll, get?_empty, Option.or_none, find?_reverse_eq_some_iff]

theorem get?_filled_eq_none_iff {history : List Registration} :
    (filled history).get? name = none ↔ ∀ c ∈ registered history, c.name ≠ name := by
  rw [filled_eq, get?_registerAll_eq_none_iff]
  simp

/-! ## The order of the names -/

/-- The commands stand in the order of their names. -/
def IsSorted (commands : List Command) : Prop := commands.Pairwise fun c d => c.name < d.name

theorem mem_of_mem_put {d : Command} (h : d ∈ put c commands) : d = c ∨ d ∈ commands := by
  induction commands with
  | nil => exact .inl (List.mem_singleton.1 h)
  | cons e commands ih =>
    rw [put] at h
    split at h
    · exact List.mem_cons.1 h
    · split at h
      · exact (List.mem_cons.1 h).imp_right (List.mem_cons_of_mem e)
      · rcases List.mem_cons.1 h with rfl | h
        · exact .inr List.mem_cons_self
        · exact (ih h).imp_right (List.mem_cons_of_mem e)

theorem isSorted_put (h : IsSorted commands) (c : Command) : IsSorted (put c commands) := by
  induction commands with
  | nil => exact List.pairwise_singleton _ _
  | cons e commands ih =>
    obtain ⟨hfirst, hrest⟩ := List.pairwise_cons.1 h
    rw [put]
    split
    · rename_i hlt
      refine List.pairwise_cons.2 ⟨fun d hd => ?_, h⟩
      rcases List.mem_cons.1 hd with rfl | hd
      · exact hlt
      · exact String.lt_trans hlt (hfirst d hd)
    · rename_i hge
      split
      · rename_i heq
        exact List.pairwise_cons.2 ⟨fun d hd => heq ▸ hfirst d hd, hrest⟩
      · rename_i hne
        have hlt : e.name < c.name := by
          by_contra hnot
          exact hne (String.le_antisymm (String.not_lt.1 hnot) (String.not_lt.1 hge))
        refine List.pairwise_cons.2 ⟨fun d hd => ?_, ih hrest⟩
        rcases mem_of_mem_put hd with rfl | hd
        · exact hlt
        · exact hfirst d hd

theorem isSorted_registerAll (h : IsSorted r.commands) (commands : List Command) :
    IsSorted (r.registerAll commands).commands := by
  induction commands generalizing r with
  | nil => exact h
  | cons c commands ih => exact @ih (r.register c) (isSorted_put h c)

def codePoints (s : String) : List Nat := s.toList.map Char.toNat

theorem codePoints_lt {s t : String} (h : s < t) : codePoints s < codePoints t :=
  List.map_lt (fun _ _ hlt => hlt) (show s.toList < t.toList from h)

theorem mem_names_iff : name ∈ r.names ↔ r.contains name = true := by
  simp [names, contains, get?]

/-- What a registry that these commands were put into answers and lists. -/
structure LastWins (commands : List Command) (r : Registry) : Prop where
  answer : ∀ name c, r.get? name = some c ↔ c.name = name ∧ IsLatest commands c
  absent : ∀ name, r.get? name = none ↔ ∀ c ∈ commands, c.name ≠ name
  sorted : (r.names.map codePoints).Pairwise (· < ·)
  listed : ∀ name, name ∈ r.names ↔ r.contains name = true
  held : ∀ name, r.contains name = true ↔ ∃ c, r.get? name = some c

theorem lastWins_filled (history : List Registration) :
    LastWins (registered history) (filled history) where
  answer _ _ := get?_filled_eq_some_iff
  absent _ := get?_filled_eq_none_iff
  sorted := by
    have hsorted : IsSorted (filled history).commands := by
      rw [filled_eq]
      exact isSorted_registerAll .nil _
    rw [names, List.map_map, List.pairwise_map]
    exact hsorted.imp codePoints_lt
  listed _ := mem_names_iff
  held name := by rw [contains, Option.isSome_iff_exists]

/-! ## Lines -/

/-- What comes of the words `name :: args` in the directory `cwd` of a tree. -/
structure Dispatches (commands : List Command) (name : String) (args : List String) (cwd : String)
    (fs : FileSystem) (i : Interpretation) : Prop where
  /-- A name that was not registered is an error, and everything stays. -/
  unknown : (∀ c ∈ commands, c.name ≠ name) →
    i.output = Markup.paint Markup.red ("command not found: " ++ name) ∧
      i.error? = some (.unknownCommand name) ∧ i.clear = false ∧ i.cwd = cwd ∧ i.fs fs = fs
  /-- The command that was registered last runs, and where its outcome has no directory or tree the
  given one stays. -/
  known : ∀ c, c.name = name → IsLatest commands c →
    i.output = (c.run ⟨args, cwd, fs⟩).output ∧ i.error? = (c.run ⟨args, cwd, fs⟩).error? ∧
      i.clear = (c.run ⟨args, cwd, fs⟩).clear ∧ i.cwd = (c.run ⟨args, cwd, fs⟩).cwd?.getD cwd ∧
      i.fs fs = (c.run ⟨args, cwd, fs⟩).fs?.getD fs

theorem LastWins.dispatches (h : LastWins commands r) (hwords : Text.words line = name :: args)
    (cwd : String) (fs : FileSystem) :
    Dispatches commands name args cwd fs (r.interpret line cwd fs) where
  unknown hnone := by
    rw [interpret_of_get?_eq_none hwords ((h.absent name).2 hnone)]
    exact ⟨rfl, rfl, rfl, rfl, rfl⟩
  known c hname hlatest := by
    rw [interpret_of_get?_eq_some hwords ((h.answer name c).2 ⟨hname, hlatest⟩)]
    exact ⟨rfl, rfl, rfl, rfl, rfl⟩

/-! ## Two registries -/

/-- The registries answer alike to the first word of the line. -/
def AgreeOn (r r' : Registry) (line : String) : Prop :=
  ∀ name args, Text.words line = name :: args → r'.get? name = r.get? name

theorem AgreeOn.interpret (h : AgreeOn r r' line) (cwd : String) (fs : FileSystem) :
    r'.interpret line cwd fs = r.interpret line cwd fs := by
  cases hwords : Text.words line with
  | nil => simp only [Registry.interpret, Invocation.parse?, hwords]
  | cons name args =>
    have hsame := h name args hwords
    cases hget : r.get? name with
    | none =>
      rw [interpret_of_get?_eq_none hwords hget,
        interpret_of_get?_eq_none hwords (hsame.trans hget)]
    | some c =>
      rw [interpret_of_get?_eq_some hwords hget,
        interpret_of_get?_eq_some hwords (hsame.trans hget)]

theorem script_of_agreeOn {lines : List String} (h : ∀ line ∈ lines, AgreeOn r r' line)
    (cwd : String) (fs : FileSystem) : r'.script lines cwd fs = r.script lines cwd fs := by
  induction lines generalizing cwd fs with
  | nil => rfl
  | cons line lines ih =>
    obtain ⟨hline, hlines⟩ := List.forall_mem_cons.1 h
    rw [script, script, hline.interpret cwd fs, ih hlines]

theorem agreeOn_register (h : (Text.words line).head? ≠ some c.name) (r : Registry) :
    AgreeOn r (r.register c) line := by
  intro name args hwords
  have hname : c.name ≠ name := by
    rintro rfl
    exact h (by rw [hwords, List.head?_cons])
  rw [get?_register, if_neg hname]

/-- After any registrations a registry answers with the last command of a name and lists its names
in order. A line that is not blank does what the last command that was registered under its first
word does with its other words. Registries that agree on the first words of a script run it alike,
with the same interpretations, so in the same directories and trees; and one more command changes
only what lines do that start with its name. -/
theorem last_registered_answers (history : List Registration) :
    LastWins (registered history) (filled history) ∧
    (∀ line cwd fs, (∃ c ∈ line.toList, Text.isBlank c = false) →
      ∃ name args, Text.words line = name :: args ∧
        Dispatches (registered history) name args cwd fs
          ((filled history).interpret line cwd fs)) ∧
    (∀ r' lines cwd fs, (∀ line ∈ lines, AgreeOn (filled history) r' line) →
      r'.script lines cwd fs = (filled history).script lines cwd fs) ∧
    ∀ c lines cwd fs, (∀ line ∈ lines, (Text.words line).head? ≠ some c.name) →
      (filled (history ++ [.one c])).script lines cwd fs =
        (filled history).script lines cwd fs := by
  have hlast := lastWins_filled history
  refine ⟨hlast, ?_, ?_, ?_⟩
  · rintro line cwd fs ⟨c, hc, hblank⟩
    have hne : Text.words line ≠ [] := by
      intro hnil
      rw [(Text.words_eq_nil_iff line).1 hnil c hc] at hblank
      cases hblank
    obtain ⟨name, args, hwords⟩ := List.exists_cons_of_ne_nil hne
    exact ⟨name, args, hwords, hlast.dispatches hwords cwd fs⟩
  · intro r' lines cwd fs hagree
    exact script_of_agreeOn hagree cwd fs
  · intro c lines cwd fs hlines
    have hfilled : filled (history ++ [.one c]) = (filled history).register c := by
      rw [filled, List.foldl_append]
      rfl
    rw [hfilled]
    exact script_of_agreeOn (fun line hline => agreeOn_register (hlines line hline) _) cwd fs

/-- A command of the name of a built-in one takes its lines over and leaves all others alone. -/
theorem last_registered_answers_shadowed :
    let mine := Command.fixed "ls" (.success "mine")
    let r := filled [.builtins, .one mine]
    let fs : FileSystem := ⟨.directory [("a", .directory [("b", .directory [])])]⟩
    (r.interpret "ls -l" "/a" fs).output = "mine" ∧
      (r.interpret " dir" "/a" fs).error? = some (.unknownCommand "dir") ∧
      r.script ["cd b", "pwd"] "/a" fs = (filled [.builtins]).script ["cd b", "pwd"] "/a" fs := by
  intro mine r fs
  obtain ⟨-, hline, -, -⟩ := last_registered_answers [.builtins, .one mine]
  obtain ⟨-, -, -, hscript⟩ := last_registered_answers [.builtins]
  refine ⟨?_, ?_, hscript mine _ _ _ (by decide)⟩
  · obtain ⟨name, args, hwords, hls⟩ := hline "ls -l" "/a" fs ⟨'l', by decide, rfl⟩
    obtain ⟨rfl, rfl⟩ : "ls" = name ∧ ["-l"] = args := List.cons.inj hwords
    exact (hls.known mine rfl ⟨Builtin.all, [], rfl, List.forall_mem_nil _⟩).1
  · obtain ⟨name, args, hwords, hdir⟩ := hline " dir" "/a" fs ⟨'d', by decide, rfl⟩
    obtain ⟨rfl, rfl⟩ : "dir" = name ∧ [] = args := List.cons.inj hwords
    exact (hdir.unknown (by decide)).2.1

end Registry

end TreeShell
