import Mathlib.Data.List.Induction
import TreeShell.Proofs.Json.Members
import TreeShell.Proofs.Text.Pieces
import TreeShell.Settings.Store

/-! # Stored settings after any history

A history of a settings file is told by two things: whether its place was ever blocked, and which
bytes were put into it last. They decide what every look at the file finds, and saved settings are
found again, with the font size in the supported range, until the file changes. -/

namespace TreeShell
open Text (Bytes)

namespace Settings

/-- The settings with the font size moved into the range from 10 to 24. -/
def clamped (s : Settings) : Settings :=
  { s with fontSize := UInt32.ofNat (min (max s.fontSize.toNat 10) 24) }

theorem toNat_clamp (size : UInt32) : (clamp size).toNat = min (max size.toNat 10) 24 := by
  have hmin : minFontSize.toNat = 10 := rfl
  have hmax : maxFontSize.toNat = 24 := rfl
  unfold clamp
  split
  · rename_i h
    rw [UInt32.lt_iff_toNat_lt] at h
    omega
  · split <;> rename_i h h' <;> rw [UInt32.lt_iff_toNat_lt] at h h' <;> omega

theorem resize_self (s : Settings) : s.resize s.fontSize = s.clamped := by
  rw [resize, clamped, ← toNat_clamp, UInt32.ofNat_toNat]

theorem toNat_fontSize_clamped (s : Settings) :
    s.clamped.fontSize.toNat = min (max s.fontSize.toNat 10) 24 := by
  rw [← resize_self]
  exact toNat_clamp s.fontSize

theorem clamped_clamped (s : Settings) : s.clamped.clamped = s.clamped := by
  have hsize : min (max s.clamped.fontSize.toNat 10) 24 = s.clamped.fontSize.toNat := by
    rw [toNat_fontSize_clamped]
    omega
  rw [clamped, hsize, UInt32.ofNat_toNat]

end Settings

namespace Stored

/-- Nothing can be read or written at the place of the file. -/
def IsBlocked (s : Stored) : Prop := s = directory ∨ s = belowFile

/-- A free place with the given bytes in the file, if there is one. -/
def ofBytes? : Option Bytes → Stored
  | none => nothing
  | some content => bytes content

/-! ## What is found -/

theorem tryLoad_of_isBlocked {s : Stored} (h : s.IsBlocked) :
    s.tryLoad = .error .inaccessible := by
  rcases h with rfl | rfl <;> rfl

theorem tryLoad_of_not_text {content : Bytes} (h : Text.decode? content = none) :
    (bytes content).tryLoad = .error .inaccessible := by
  simp only [tryLoad, read, Settings.ofRead, h]

theorem tryLoad_of_unreadable {text : String} (h : Settings.ofJson? text = none) :
    (bytes (Text.encode text)).tryLoad = .error .malformed := by
  simp only [tryLoad, read, Settings.ofRead, Text.decode?_encode, h]

theorem tryLoad_of_readable {text : String} {settings : Settings}
    (h : Settings.ofJson? text = some settings) :
    (bytes (Text.encode text)).tryLoad = .ok (some settings.clamped) := by
  simp only [tryLoad, read, Settings.ofRead, Text.decode?_encode, h, Settings.resize_self]

theorem load_of_found {s : Stored} {settings : Settings} (h : s.tryLoad = .ok (some settings)) :
    s.load = settings := by
  rw [load, h]
  rfl

theorem load_of_not_found {s : Stored} (h : ∀ settings, s.tryLoad ≠ .ok (some settings)) :
    s.load = {} := by
  cases hload : s.tryLoad with
  | error e => rw [load, hload]; rfl
  | ok found =>
    cases found with
    | none => rw [load, hload]; rfl
    | some settings => exact absurd hload (h settings)

/-! ## Saving -/

theorem save_of_isBlocked {s : Stored} (h : s.IsBlocked) (settings : Settings) :
    s.save settings = (.error .inaccessible, s) := by
  rcases h with rfl | rfl <;> rfl

theorem save_ofBytes? (content : Option Bytes) (settings : Settings) :
    (ofBytes? content).save settings = (.ok (), bytes (Text.encode settings.toJson)) := by
  cases content <;> rfl

end Stored

/-! ## Histories -/

/-- What may be done with stored settings: a step that may change them, or a look at them. -/
inductive StoreUse where
  | change (step : StoreStep)
  | tryLoad
  | load
  deriving DecidableEq, Repr

inductive StoreReply where
  | done (result : Except SettingsError Unit)
  | tried (result : Except SettingsError (Option Settings))
  | loaded (settings : Settings)

namespace StoreUse

def perform : StoreUse → Stored → StoreReply × Stored
  | change step, s => (.done (step.apply s).1, (step.apply s).2)
  | tryLoad, s => (.tried s.tryLoad, s)
  | load, s => (.loaded s.load, s)

/-- The bytes that are put into the file if its place is free. -/
def bytes? : StoreUse → Option Bytes
  | change (.write content) => some content
  | change (.save settings) => some (Text.encode settings.toJson)
  | _ => none

/-- Whether something is put in the way of the file. -/
def blocks : StoreUse → Bool
  | change .blockDirectory => true
  | change .blockFile => true
  | _ => false

end StoreUse

namespace Stored

def performAll : List StoreUse → Stored → List StoreReply × Stored
  | [], s => ([], s)
  | u :: uses, s =>
    let next := u.perform s
    let rest := performAll uses next.2
    (next.1 :: rest.1, rest.2)

/-- What is stored after the given uses of a place where there was nothing. -/
def after (uses : List StoreUse) : Stored := (performAll uses nothing).2

theorem performAll_append (before later : List StoreUse) (s : Stored) :
    performAll (before ++ later) s =
      ((performAll before s).1 ++ (performAll later (performAll before s).2).1,
        (performAll later (performAll before s).2).2) := by
  induction before generalizing s with
  | nil => rfl
  | cons u before ih =>
    rw [List.cons_append, performAll, ih]
    rfl

theorem length_replies (uses : List StoreUse) (s : Stored) :
    (performAll uses s).1.length = uses.length := by
  induction uses generalizing s with
  | nil => rfl
  | cons u uses ih => exact congrArg (· + 1) (ih (u.perform s).2)

theorem after_append (before later : List StoreUse) :
    after (before ++ later) = (performAll later (after before)).2 := by
  rw [after, performAll_append]
  rfl

/-- Each use is answered from what the uses before it have left. -/
theorem getElem?_replies (before : List StoreUse) (u : StoreUse) (later : List StoreUse) :
    (performAll (before ++ u :: later) nothing).1[before.length]? =
      some (u.perform (after before)).1 := by
  rw [performAll_append, List.getElem?_append_right (Nat.le_of_eq (length_replies _ _)),
    length_replies, Nat.sub_self]
  rfl

/-- Whether the place of the file was ever blocked. -/
def EverBlocked (uses : List StoreUse) : Prop := ∃ u ∈ uses, u.blocks = true

/-- The bytes that were put into the file last. -/
def lastBytes? (uses : List StoreUse) : Option Bytes := (uses.filterMap StoreUse.bytes?).getLast?

theorem everBlocked_singleton {u : StoreUse} : EverBlocked [u] ↔ u.blocks = true := by
  simp [EverBlocked]

theorem everBlocked_append {before later : List StoreUse} :
    EverBlocked (before ++ later) ↔ EverBlocked before ∨ EverBlocked later := by
  simp [EverBlocked, or_and_right, exists_or]

theorem lastBytes?_singleton (u : StoreUse) : lastBytes? [u] = u.bytes? := by
  rw [lastBytes?]
  cases hbytes : u.bytes? <;> simp [hbytes]

theorem lastBytes?_append (before later : List StoreUse) :
    lastBytes? (before ++ later) = (lastBytes? later).or (lastBytes? before) := by
  rw [lastBytes?, List.filterMap_append, List.getLast?_append]
  rfl

theorem isBlocked_perform {s : Stored} (h : s.IsBlocked) (u : StoreUse) :
    (u.perform s).2.IsBlocked := by
  cases u with
  | change step =>
    cases step with
    | blockDirectory => exact .inr rfl
    | _ => rcases h with rfl | rfl <;> simp [StoreUse.perform, StoreStep.apply, write, save,
        blockFile, IsBlocked]
  | _ => exact h

theorem isBlocked_of_blocks {u : StoreUse} (h : u.blocks = true) (s : Stored) :
    (u.perform s).2.IsBlocked := by
  cases u with
  | change step =>
    cases step with
    | blockDirectory => exact .inr rfl
    | blockFile => cases s <;> simp [StoreUse.perform, StoreStep.apply, blockFile, IsBlocked]
    | _ => cases h
  | _ => cases h

theorem perform_ofBytes? {u : StoreUse} (h : u.blocks = false) (content : Option Bytes) :
    (u.perform (ofBytes? content)).2 = ofBytes? (u.bytes?.or content) := by
  cases u with
  | change step =>
    cases step with
    | write new => cases content <;> rfl
    | save settings => cases content <;> rfl
    | _ => cases h
  | _ => cases content <;> rfl

/-- What is stored is told by whether the place was ever blocked and by the bytes written last. -/
theorem after_cases (uses : List StoreUse) :
    (EverBlocked uses ∧ (after uses).IsBlocked) ∨
      (¬ EverBlocked uses ∧ after uses = ofBytes? (lastBytes? uses)) := by
  induction uses using List.reverseRecOn with
  | nil => exact .inr ⟨by simp [EverBlocked], rfl⟩
  | append_singleton uses u ih =>
    have hnext : after (uses ++ [u]) = (u.perform (after uses)).2 := after_append uses [u]
    rw [everBlocked_append, everBlocked_singleton, lastBytes?_append, lastBytes?_singleton, hnext]
    rcases ih with ⟨hever, hblocked⟩ | ⟨hnever, hfree⟩
    · exact .inl ⟨.inl hever, isBlocked_perform hblocked u⟩
    · cases hu : u.blocks with
      | true => exact .inl ⟨.inr rfl, isBlocked_of_blocks hu _⟩
      | false =>
        rw [hfree, perform_ofBytes? hu]
        exact .inr ⟨by simp [hnever], rfl⟩

/-! ## What a history comes to -/

theorem isBlocked_after {uses : List StoreUse} (h : EverBlocked uses) : (after uses).IsBlocked := by
  rcases after_cases uses with ⟨-, hblocked⟩ | ⟨hnever, -⟩
  · exact hblocked
  · exact absurd h hnever

theorem after_of_not_everBlocked {uses : List StoreUse} (h : ¬ EverBlocked uses) :
    after uses = ofBytes? (lastBytes? uses) := by
  rcases after_cases uses with ⟨hever, -⟩ | ⟨-, hfree⟩
  · exact absurd hever h
  · exact hfree

/-- What a look finds after the given uses. -/
inductive Finds (uses : List StoreUse) : Except SettingsError (Option Settings) → Prop where
  | blocked (h : EverBlocked uses) : Finds uses (.error .inaccessible)
  | nothing (h : ¬ EverBlocked uses) (hlast : lastBytes? uses = none) : Finds uses (.ok none)
  | garbled {content : Bytes} (h : ¬ EverBlocked uses) (hlast : lastBytes? uses = some content)
    (htext : Text.decode? content = none) : Finds uses (.error .inaccessible)
  | malformed {text : String} (h : ¬ EverBlocked uses)
    (hlast : lastBytes? uses = some (Text.encode text)) (hread : Settings.ofJson? text = none) :
    Finds uses (.error .malformed)
  | found {text : String} {settings : Settings} (h : ¬ EverBlocked uses)
    (hlast : lastBytes? uses = some (Text.encode text))
    (hread : Settings.ofJson? text = some settings) : Finds uses (.ok (some settings.clamped))

theorem finds_tryLoad (uses : List StoreUse) : Finds uses (after uses).tryLoad := by
  by_cases h : EverBlocked uses
  · rw [tryLoad_of_isBlocked (isBlocked_after h)]
    exact .blocked h
  · rw [after_of_not_everBlocked h]
    cases hlast : lastBytes? uses with
    | none => exact .nothing h hlast
    | some content =>
      rw [ofBytes?]
      cases htext : Text.decode? content with
      | none =>
        rw [tryLoad_of_not_text htext]
        exact .garbled h hlast htext
      | some text =>
        rw [Text.decode?_eq_some_iff.1 htext] at hlast ⊢
        cases hread : Settings.ofJson? text with
        | none =>
          rw [tryLoad_of_unreadable hread]
          exact .malformed h hlast hread
        | some settings =>
          rw [tryLoad_of_readable hread]
          exact .found h hlast hread

theorem tryLoad_eq_iff {uses : List StoreUse} {result : Except SettingsError (Option Settings)} :
    (after uses).tryLoad = result ↔ Finds uses result := by
  constructor
  · rintro rfl
    exact finds_tryLoad uses
  · intro hfinds
    cases hfinds with
    | blocked h => exact tryLoad_of_isBlocked (isBlocked_after h)
    | nothing h hlast => rw [after_of_not_everBlocked h, hlast]; rfl
    | garbled h hlast htext =>
      rw [after_of_not_everBlocked h, hlast]
      exact tryLoad_of_not_text htext
    | malformed h hlast hread =>
      rw [after_of_not_everBlocked h, hlast]
      exact tryLoad_of_unreadable hread
    | found h hlast hread =>
      rw [after_of_not_everBlocked h, hlast]
      exact tryLoad_of_readable hread

theorem tryLoad_eq_inaccessible_iff {uses : List StoreUse} :
    (after uses).tryLoad = .error .inaccessible ↔ EverBlocked uses ∨
      ∃ content, lastBytes? uses = some content ∧ Text.decode? content = none := by
  rw [tryLoad_eq_iff]
  constructor
  · intro h
    cases h with
    | blocked h => exact .inl h
    | garbled h hlast htext => exact .inr ⟨_, hlast, htext⟩
  · rintro (h | ⟨content, hlast, htext⟩)
    · exact .blocked h
    · by_cases h : EverBlocked uses
      · exact .blocked h
      · exact .garbled h hlast htext

theorem tryLoad_eq_none_iff {uses : List StoreUse} :
    (after uses).tryLoad = .ok none ↔ ¬ EverBlocked uses ∧ lastBytes? uses = none := by
  rw [tryLoad_eq_iff]
  constructor
  · intro h
    cases h with
    | nothing h hlast => exact ⟨h, hlast⟩
  · rintro ⟨h, hlast⟩
    exact .nothing h hlast

theorem tryLoad_eq_malformed_iff {uses : List StoreUse} :
    (after uses).tryLoad = .error .malformed ↔ ¬ EverBlocked uses ∧
      ∃ text, lastBytes? uses = some (Text.encode text) ∧ Settings.ofJson? text = none := by
  rw [tryLoad_eq_iff]
  constructor
  · intro h
    cases h with
    | malformed h hlast hread => exact ⟨h, _, hlast, hread⟩
  · rintro ⟨h, text, hlast, hread⟩
    exact .malformed h hlast hread

theorem tryLoad_eq_some_iff {uses : List StoreUse} {found : Settings} :
    (after uses).tryLoad = .ok (some found) ↔ ¬ EverBlocked uses ∧
      ∃ text settings, lastBytes? uses = some (Text.encode text) ∧
        Settings.ofJson? text = some settings ∧ found = settings.clamped := by
  rw [tryLoad_eq_iff]
  constructor
  · intro h
    cases h with
    | found h hlast hread => exact ⟨h, _, _, hlast, hread, rfl⟩
  · rintro ⟨h, text, settings, hlast, hread, rfl⟩
    exact .found h hlast hread

/-- What is loaded, be it found or the defaults, has its font size in the range. -/
theorem clamped_load (uses : List StoreUse) : (after uses).load.clamped = (after uses).load := by
  have hfinds := finds_tryLoad uses
  generalize hresult : (after uses).tryLoad = result at hfinds
  rw [load, hresult]
  cases hfinds with
  | found h hlast hread => exact Settings.clamped_clamped _
  | _ => rfl

/-- Saved settings are found as long as no later use writes to the file or blocks it. -/
theorem tryLoad_after_save {uses : List StoreUse} (h : ¬ EverBlocked uses) (settings : Settings)
    {later : List StoreUse} (hfree : ¬ EverBlocked later) (hwritten : lastBytes? later = none) :
    (after (uses ++ .change (.save settings) :: later)).tryLoad = .ok (some settings.clamped) := by
  rw [List.append_cons]
  refine tryLoad_eq_iff.2 (.found ?_ ?_ settings.ofJson?_toJson)
  · rw [everBlocked_append, everBlocked_append, everBlocked_singleton, not_or, not_or]
    exact ⟨⟨h, Bool.false_ne_true⟩, hfree⟩
  · rw [lastBytes?_append, lastBytes?_append, hwritten, lastBytes?_singleton]
    rfl

/-- The law of stored settings at the end of the given uses. -/
structure IsToldBy (uses : List StoreUse) : Prop where
  /-- The next use is answered from what is stored here, whatever else is still to come. -/
  answered : ∀ u later, (performAll (uses ++ u :: later) nothing).1[uses.length]? =
    some (u.perform (after uses)).1
  inaccessible_iff : (after uses).tryLoad = .error .inaccessible ↔
    EverBlocked uses ∨ ∃ content, lastBytes? uses = some content ∧ Text.decode? content = none
  none_iff : (after uses).tryLoad = .ok none ↔ ¬ EverBlocked uses ∧ lastBytes? uses = none
  malformed_iff : (after uses).tryLoad = .error .malformed ↔ ¬ EverBlocked uses ∧
    ∃ text, lastBytes? uses = some (Text.encode text) ∧ Settings.ofJson? text = none
  some_iff : ∀ found, (after uses).tryLoad = .ok (some found) ↔ ¬ EverBlocked uses ∧
    ∃ text settings, lastBytes? uses = some (Text.encode text) ∧
      Settings.ofJson? text = some settings ∧ found = settings.clamped
  loads_found : ∀ found, (after uses).tryLoad = .ok (some found) → (after uses).load = found
  /-- Else the defaults are loaded. -/
  loads_defaults : (∀ found, (after uses).tryLoad ≠ .ok (some found)) → (after uses).load = {}
  in_range : 10 ≤ (after uses).load.fontSize.toNat ∧ (after uses).load.fontSize.toNat ≤ 24
  /-- A save succeeds where the place was never blocked, and then its settings are found until the
  file is written to or blocked. -/
  saves : ∀ settings, ¬ EverBlocked uses → ((after uses).save settings).1 = .ok () ∧
    ∀ later, ¬ EverBlocked later → lastBytes? later = none →
      (after (uses ++ .change (.save settings) :: later)).tryLoad = .ok (some settings.clamped)
  /-- Elsewhere it fails and leaves no trace. -/
  refuses : ∀ settings, EverBlocked uses → ((after uses).save settings).1 = .error .inaccessible ∧
    ∀ later, after (uses ++ .change (.save settings) :: later) = after (uses ++ later)
  reloads : ((after uses).save (after uses).load).1 = .ok () →
    (after (uses ++ [.change (.save (after uses).load)])).load = (after uses).load

/-- After any uses of stored settings a look at them, the loading and the saving come to what the
uses before have done to the file, and to nothing else. -/
theorem told_by_uses (uses : List StoreUse) : IsToldBy uses where
  answered := getElem?_replies uses
  inaccessible_iff := tryLoad_eq_inaccessible_iff
  none_iff := tryLoad_eq_none_iff
  malformed_iff := tryLoad_eq_malformed_iff
  some_iff _ := tryLoad_eq_some_iff
  loads_found _ := load_of_found
  loads_defaults := load_of_not_found
  in_range := by
    rw [← clamped_load, Settings.toNat_fontSize_clamped]
    omega
  saves settings h := by
    refine ⟨?_, fun later => tryLoad_after_save h settings⟩
    rw [after_of_not_everBlocked h, save_ofBytes?]
  refuses settings h := by
    have hsave := save_of_isBlocked (isBlocked_after h) settings
    refine ⟨congrArg Prod.fst hsave, fun later => ?_⟩
    have hsame : ((StoreUse.change (.save settings)).perform (after uses)).2 = after uses :=
      congrArg Prod.snd hsave
    rw [after_append, after_append, performAll, hsame]
  reloads h := by
    by_cases hever : EverBlocked uses
    · rw [save_of_isBlocked (isBlocked_after hever)] at h
      cases h
    · have hnever : ¬ EverBlocked [] := by simp [EverBlocked]
      rw [load_of_found (tryLoad_after_save hever (after uses).load hnever rfl), clamped_load]

end Stored

end TreeShell
