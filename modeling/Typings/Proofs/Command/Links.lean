import Typings.Command.Run
import Typings.Proofs.FileTree.Links

/-!
# Runs without links

A command reaches files only through its host. So if the answers of a host are those of another
one, and its changes are the changes of the other one, then every command tells the same on both
hosts, and what it leaves on one of them it leaves on the other one.

A tree with links that has none is such a host beside the tree alone. What is proved of runs in a
`FileTree` is thus what happens wherever there are no symbolic links.

## Main definitions

* `Mirrors` — an action that does to one state what another one does to another state.
* `Host.Mirrors` — a host all of whose actions do so.

## Main results

* `Host.Mirrors.run` — every command tells and leaves the same.
* `LinkedTree.runIn_ofTree` — a run in a tree without links.
-/

namespace Typings

/-! ## Actions -/

/-- On the states that stand for those of the first action, the second action gives the same, and
leaves what stands for what the first one leaves. -/
def Mirrors {σ τ α : Type} (e : σ → τ) (x : StateM σ α) (y : StateM τ α) : Prop :=
  ∀ s, y (e s) = ((x s).1, e (x s).2)

namespace Mirrors

variable {σ τ α β : Type} {e : σ → τ}

theorem pure (a : α) : Mirrors e (Pure.pure a) (Pure.pure a) := fun _ => rfl

theorem bind {x : StateM σ α} {y : StateM τ α} {f : α → StateM σ β} {g : α → StateM τ β}
    (h : Mirrors e x y) (hrest : ∀ a, Mirrors e (f a) (g a)) : Mirrors e (x >>= f) (y >>= g) := by
  intro s
  show g (y (e s)).1 (y (e s)).2 = _
  rw [h s]
  exact hrest (x s).1 (x s).2

theorem mapM {f : β → StateM σ α} {g : β → StateM τ α} (h : ∀ b, Mirrors e (f b) (g b))
    (bs : List β) : Mirrors e (bs.mapM f) (bs.mapM g) := by
  induction bs with
  | nil => exact pure []
  | cons b rest ih =>
      rw [List.mapM_cons, List.mapM_cons]
      exact (h b).bind fun a => ih.bind fun as => pure (a :: as)

theorem filterM {f : β → StateM σ Bool} {g : β → StateM τ Bool} (h : ∀ b, Mirrors e (f b) (g b))
    (bs : List β) : Mirrors e (bs.filterM f) (bs.filterM g) := by
  have haux (kept : List β) : Mirrors e (bs.filterAuxM f kept) (bs.filterAuxM g kept) := by
    induction bs generalizing kept with
    | nil => exact pure kept
    | cons b rest ih => exact (h b).bind fun _ => ih _
  exact (haux []).bind fun kept => pure kept.reverse

end Mirrors

/-! ## Hosts -/

/-- A host whose actions do what those of another host do. -/
structure Host.Mirrors {σ τ : Type} (e : σ → τ) (h : Host (StateM σ)) (h' : Host (StateM τ)) :
    Prop where
  cwd : h'.cwd = h.cwd
  exists? : ∀ p, Typings.Mirrors e (h.exists? p) (h'.exists? p)
  isFile : ∀ p, Typings.Mirrors e (h.isFile p) (h'.isFile p)
  read : ∀ p, Typings.Mirrors e (h.read p) (h'.read p)
  placesBelow : ∀ p, Typings.Mirrors e (h.placesBelow p) (h'.placesBelow p)
  createDirectories : ∀ p, Typings.Mirrors e (h.createDirectories p) (h'.createDirectories p)
  write : ∀ p content, Typings.Mirrors e (h.write p content) (h'.write p content)

namespace Host.Mirrors

variable {σ τ : Type} {e : σ → τ} {h : Host (StateM σ)} {h' : Host (StateM τ)}

theorem configPath_eq (m : h.Mirrors e h') : configPath h' = configPath h := by
  rw [configPath, configPath, m.cwd]

theorem loadConfig (m : h.Mirrors e h') :
    Typings.Mirrors e (Typings.loadConfig h) (Typings.loadConfig h') := by
  rw [Typings.loadConfig, Typings.loadConfig, m.configPath_eq]
  refine (m.exists? _).bind fun found => ?_
  cases found with
  | false => exact .pure _
  | true =>
      refine (m.read _).bind fun content => ?_
      cases content with
      | error e => exact .pure _
      | ok text =>
          dsimp only
          cases Config.parse? text <;> exact .pure _

theorem findDescriptorFiles (m : h.Mirrors e h') (input : Path) :
    Typings.Mirrors e (Typings.findDescriptorFiles h input)
      (Typings.findDescriptorFiles h' input) := by
  refine (m.isFile input).bind fun found => ?_
  cases found with
  | true => exact .pure _
  | false => exact (m.placesBelow input).bind fun places => .pure _

theorem deliver (m : h.Mirrors e h') (path : Path) (text : String) :
    Typings.Mirrors e (Typings.deliver h path text) (Typings.deliver h' path text) := by
  rw [Typings.deliver, Typings.deliver]
  cases path.parent?
  case' none => refine (Typings.Mirrors.pure _).bind fun made => ?_
  case' some dir => refine (m.createDirectories dir).bind fun made => ?_
  -- Whether there was a directory to make or not, the rest is the same.
  all_goals
    cases made with
    | error e => exact .pure _
    | ok done =>
        refine (m.write path text).bind fun written => ?_
        cases written <;> exact .pure _

theorem generateFile (m : h.Mirrors e h') (printing : Bool) (o : Options) (outDir : Option Path)
    (found : Found) :
    Typings.Mirrors e (Typings.generateFile h printing o outDir found)
      (Typings.generateFile h' printing o outDir found) := by
  refine (m.read found.path).bind fun content => ?_
  cases content with
  | error e => exact .pure _
  | ok text =>
      dsimp only
      cases DescriptorFile.parse? text with
      | none => exact .pure _
      | some file =>
          refine (Typings.Mirrors.filterM m.isFile _).bind fun present => ?_
          cases generate o file.types file.sourcePath fun p => decide (p ∈ present) with
          | error what => exact .pure _
          | ok definitions =>
              cases printing with
              | true => exact (Typings.Mirrors.pure _).bind fun outcome => .pure _
              | false => exact (m.deliver _ _).bind fun outcome => .pure _

theorem generateAll (m : h.Mirrors e h') (a : GenerateArguments) :
    Typings.Mirrors e (Typings.generateAll h a) (Typings.generateAll h' a) := by
  refine m.loadConfig.bind fun loaded => ?_
  cases loaded with
  | error e => exact .pure _
  | ok config =>
      dsimp only
      rw [m.cwd]
      refine (m.exists? _).bind fun found => ?_
      cases found with
      | false => exact .pure _
      | true =>
          refine (m.findDescriptorFiles _).bind fun files => ?_
          exact (Typings.Mirrors.mapM (m.generateFile _ _ _) files).bind fun reports => .pure _

theorem writeConfig (m : h.Mirrors e h') (a : InitArguments) :
    Typings.Mirrors e (Typings.writeConfig h a) (Typings.writeConfig h' a) := by
  rw [Typings.writeConfig, Typings.writeConfig, m.configPath_eq]
  refine (m.exists? _).bind fun found => ?_
  split
  · exact .pure _
  · refine (m.write _ _).bind fun written => ?_
    cases written <;> exact .pure _

/-- **Every command tells the same on a host** whose actions do what those of another host do, and
it leaves the same there. -/
theorem run (m : h.Mirrors e h') (request : Request) :
    Typings.Mirrors e (request.run h) (request.run h') := by
  cases request with
  | generate a => exact m.generateAll a
  | init a => exact m.writeConfig a
  | version => exact .pure _
  | help => exact .pure _
  | invalid => exact .pure _

end Host.Mirrors

/-! ## Trees without links -/

namespace LinkedTree

open FileTree

theorem mirrors_host (cwd : Place) :
    Host.Mirrors ofTree (FileTree.host cwd) (LinkedTree.host cwd) where
  cwd := rfl
  exists? p t := congrArg (·, ofTree t) (exists?_ofTree t cwd p)
  isFile p t := congrArg (·, ofTree t) (isFile_ofTree t cwd p)
  read p t := congrArg (·, ofTree t) (read_ofTree t cwd p)
  placesBelow p t := congrArg (·, ofTree t) (placesBelow_ofTree t cwd p)
  createDirectories p t := congrArg Prod.swap (createDirectories_ofTree t cwd p)
  write p content t := by
    simp only [LinkedTree.host, FileTree.host, writing, write_ofTree]
    cases t.write cwd p content <;> rfl

/-- **A run in a tree without links** tells what the run in the file tree tells, and leaves the file
tree that this one leaves. -/
theorem runIn_ofTree (cwd : Place) (arguments : List String) (t : FileTree) :
    LinkedTree.runIn cwd arguments (ofTree t)
      = ((Typings.runIn cwd arguments t).1, ofTree (Typings.runIn cwd arguments t).2) :=
  (mirrors_host cwd).run _ t

end LinkedTree

end Typings
