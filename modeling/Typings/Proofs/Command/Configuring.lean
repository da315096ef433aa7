import Typings.Proofs.Command.Trace
import Typings.Proofs.Configuration

/-!
# Runs that write a configuration

A run that is asked for a configuration writes the default options and the directory that it is
given. What it has written is found by the next run in the same directory, and it says the same. A
configuration that is there already is only replaced by force: without it nothing is written, and a
file that could not be seen to be there could not be written either.

## Main definitions

* `Configures` — what a run that is asked for a configuration leaves.

## Main results

* `ofArguments_outDir` — every directory can be asked for.
* `configures_runIn` — a run that is asked for a configuration.
* `configuration_survives` — writing and reading configurations.
-/

namespace Typings

open FileTree

/-! ## Asking for a configuration -/

/-- The options of a run that writes a configuration, with the one for help. -/
def InitArguments.allSwitches : List Switch :=
  InitArguments.switches ++ [{ name := "help", letter := some 'h' }]

theorem ofArguments_of_readArguments {arguments : List String} {dir : String}
    (h : readArguments InitArguments.allSwitches none arguments
      = ⟨[.value "out-dir" dir], true⟩) :
    Request.ofArguments ("init" :: arguments) = .init { outDir := some dir } := by
  show readCommand InitArguments.switches 0 InitArguments.request arguments = _
  rw [InitArguments.allSwitches] at h
  rw [readCommand, h]
  rfl

/-- **Every directory can be asked for**: behind an equals sign, and in an argument of its own
unless it looks like an option. -/
theorem ofArguments_outDir (dir : String) :
    Request.ofArguments ["init", "--out-dir=" ++ dir] = .init { outDir := some dir } ∧
      (isValue dir = true →
        Request.ofArguments ["init", "--out-dir", dir] = .init { outDir := some dir }) := by
  constructor
  · have hargument : readArgument InitArguments.allSwitches ("--out-dir=" ++ dir)
        = { items := [.value "out-dir" dir] } := by
      have hsplit : Text.splitFirst '=' ("out-dir=".toList ++ dir.toList)
          = some ("out-dir".toList, dir.toList) := rfl
      rw [readArgument, String.toList_append]
      show readName _ ("out-dir=".toList ++ dir.toList) = _
      rw [readName, hsplit]
      show ({ items := [.value "out-dir" (String.ofList dir.toList)] } : Given) = _
      rw [String.ofList_toList]
    have hoption : "--out-dir=" ++ dir ≠ "--" := by
      intro h
      have hlength := congrArg String.length h
      rw [String.length_append] at hlength
      have : "--out-dir=".length = 10 := rfl
      have : "--".length = 2 := rfl
      omega
    refine ofArguments_of_readArguments ?_
    rw [readArguments, if_neg hoption, hargument]
    rfl
  · intro hvalue
    have hargument : readArgument InitArguments.allSwitches "--out-dir"
        = { items := [], waiting := some "out-dir" } := by decide +kernel
    refine ofArguments_of_readArguments ?_
    rw [readArguments, if_neg (by decide), hargument]
    show (readArguments _ (some "out-dir") [dir]).after [] = _
    rw [readArguments, if_pos hvalue]
    rfl

/-! ## Writing a configuration -/

/-- What a run leaves that is asked for a configuration in a directory. It succeeds if the file can
be written and may be, and then the configuration is loaded from there. -/
structure Configures (cwd : Place) (a : InitArguments) (t : FileTree) (r : Report × FileTree) :
    Prop where
  writes : (t.exists? cwd (configPath (host cwd)) = true → a.force = true) → ∀ t',
    t.write cwd (configPath (host cwd)) a.config.writeIndented = .ok t' → r = (.configured, t')
  loads : r.1 = .configured → loadConfig (host cwd) r.2 = (.ok a.config, r.2)
  refuses : a.force = false → t.exists? cwd (configPath (host cwd)) = true →
    r = (.configuredBefore, t)
  persists : a.force = false → Persists (fun _ => True) t r.2

/-- A configuration that is written is loaded from where it was written to. -/
theorem loadConfig_of_write {cwd : Place} {c : Config} {t t' : FileTree}
    (h : t.write cwd (configPath (host cwd)) c.writeIndented = .ok t') :
    loadConfig (host cwd) t' = (.ok c, t') := by
  have hread := read_write h
  have hexists : t'.exists? cwd (configPath (host cwd)) = true := exists?_of_read hread
  rw [loadConfig_host, configuration, if_pos hexists, hread]
  simp only [c.parse?_write.2]

/-- **A run that is asked for a configuration.** -/
theorem configures_runIn {arguments : List String} {a : InitArguments}
    (harguments : Request.ofArguments arguments = .init a) (cwd : Place) (t : FileTree) :
    Configures cwd a t (runIn cwd arguments t) := by
  have hrun : runIn cwd arguments t = writeConfig (host cwd) a t := by
    rw [runIn, harguments]
    rfl
  rw [hrun, writeConfig_host]
  cases hkeep : t.exists? cwd (configPath (host cwd)) && !a.force with
  | true =>
      obtain ⟨hexists, hforce⟩ : t.exists? cwd (configPath (host cwd)) = true ∧ a.force = false := by
        simpa using hkeep
      rw [if_pos rfl]
      refine ⟨fun hmay => ?_, fun h => absurd h (by simp), fun _ _ => rfl, fun _ => .refl _ t⟩
      rw [hmay hexists] at hforce
      cases hforce
  | false =>
      rw [if_neg (by simp)]
      have hnew (hforce : a.force = false) : t.exists? cwd (configPath (host cwd)) = false := by
        simpa [hforce] using hkeep
      have hrefuses {r : Report × FileTree} (hforce : a.force = false)
          (hthere : t.exists? cwd (configPath (host cwd)) = true) : r = (.configuredBefore, t) := by
        rw [hnew hforce] at hthere
        cases hthere
      cases hwrite : t.write cwd (configPath (host cwd)) a.config.writeIndented with
      | ok written =>
          refine ⟨fun _ t' hwritten => ?_, fun _ => loadConfig_of_write hwrite, hrefuses,
            fun hforce => persists_write_of_free hwrite (hnew hforce)⟩
          rw [Except.ok.inj (hwrite.symm.trans hwritten)]
      | error e =>
          refine ⟨fun _ t' hwritten => ?_, fun h => absurd h (by simp), hrefuses,
            fun _ => .refl _ t⟩
          rw [hwrite] at hwritten
          cases hwritten

/-- **A configuration survives writing and reading.** Its text is read as the same configuration in
both layouts, also without some fields that hold their default values. So what a run writes that is
asked for a configuration is loaded, with the default options and the given directory, and without
force no run changes a configuration that is there. -/
theorem configuration_survives :
    (∀ (c : Config) (left leftOptions : List String), c.HoldsDefaults left leftOptions →
      Config.parse? (c.toJsonWithout left leftOptions).compact = some c ∧
        Config.parse? (c.toJsonWithout left leftOptions).indented = some c) ∧
    (∀ dir : String,
      Request.ofArguments ["init", "--out-dir=" ++ dir] = .init { outDir := some dir } ∧
        (isValue dir = true →
          Request.ofArguments ["init", "--out-dir", dir] = .init { outDir := some dir })) ∧
    ∀ (arguments : List String) (a : InitArguments), Request.ofArguments arguments = .init a →
      ∀ (cwd : Place) (t : FileTree), Configures cwd a t (runIn cwd arguments t) :=
  ⟨fun _ _ _ h => Config.parse?_toJsonWithout h, ofArguments_outDir,
    fun _ _ h cwd t => configures_runIn h cwd t⟩

/-- Tabs instead of blanks, and a directory whose name needs an escape. -/
def tabsConfig : Config := ⟨{ Options.default with indent := .tab }, some "a\"b"⟩

/-- All options that `tabsConfig` leaves at their defaults are left out. Then a configuration is
written into an empty directory, and a second run finds it there. -/
theorem configuration_survives_tabs :
    (Config.parse? (tabsConfig.toJsonWithout [] (Options.fieldNames.erase "indent")).compact
        = some tabsConfig ∧
      Config.parse? (tabsConfig.toJsonWithout [] (Options.fieldNames.erase "indent")).indented
        = some tabsConfig) ∧
    ∃ t', runIn [] ["init", "--out-dir=typings"] (.directory []) = (.configured, t') ∧
      loadConfig (host []) t' = (.ok ⟨.default, some "typings"⟩, t') ∧
      runIn [] ["init", "--out-dir", "other"] t' = (.configuredBefore, t') := by
  obtain ⟨hread, hask, hrun⟩ := configuration_survives
  have hdefaults : tabsConfig.HoldsDefaults [] (Options.fieldNames.erase "indent") := by
    refine ⟨by simp, by simp, ?_⟩
    constructor <;> decide
  refine ⟨hread _ _ _ hdefaults, ?_⟩
  obtain ⟨t', hwritten, hthere⟩ :
      ∃ t', runIn [] ["init", "--out-dir=" ++ "typings"] (.directory []) = (.configured, t') ∧
        t'.exists? [] (configPath (host [])) = true := ⟨_, rfl, rfl⟩
  have hfirst := hrun _ _ (hask "typings").1 [] (.directory [])
  rw [hwritten] at hfirst
  have hsecond := hrun _ _ ((hask "other").2 (by decide)) [] t'
  exact ⟨t', hwritten, hfirst.loads rfl, hsecond.refuses rfl hthere⟩

end Typings
