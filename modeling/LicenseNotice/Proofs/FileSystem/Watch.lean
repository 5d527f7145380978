import LicenseNotice.Proofs.FileSystem.Reading

/-! # Reading under watch

A computation that reads files can run over a reader that keeps the paths it is asked for. What it
comes to is not changed by that; the paths show which files it depends on.
-/

namespace LicenseNotice.FileSystem

set_option autoImplicit false

variable {α β : Type} {fs : FileSystem} {warnings : List Warning} {items : List α}

/-- Computations over files that keep the paths they ask for, in order. -/
abbrev Watched := StateT (List String) (ReaderM FileSystem)

def noted {α : Type} (path : String) (answer : ReaderM FileSystem α) : Watched α := do
  modify (· ++ [path])
  answer

instance : FileReader Watched where
  workingDirectory := liftM (FileReader.workingDirectory : ReaderM FileSystem String)
  kind? path := noted path (FileReader.kind? path)
  read path := noted path (FileReader.read path)
  filesBelow path := noted path (FileReader.filesBelow path)
  unread? path := noted path (FileReader.unread? path)
  unreadBelow? path := noted path (FileReader.unreadBelow? path)

/-- What a computation comes to, and the paths it asked for behind those before it. -/
def watch (fs : FileSystem) (warnings : List Warning) (before : List String) (x : Loading Watched α) :
    (Except Failure α × List Warning) × List String :=
  ((x.run.run warnings).run before).run fs

theorem watch_bind {before : List String} {x : Loading Watched α} {f : α → Loading Watched β} :
    fs.watch warnings before (x >>= f) =
      match fs.watch warnings before x with
      | ((.ok a, between), asked) => fs.watch between asked (f a)
      | ((.error failure, between), asked) => ((.error failure, between), asked) := by
  change (((x >>= f).run.run warnings).run before).run fs = _
  rw [ExceptT.run_bind, StateT.run_bind, StateT.run_bind, ReaderT.run_bind, watch]
  generalize ((x.run.run warnings).run before).run fs = ran
  obtain ⟨⟨_ | a, between⟩, asked⟩ := ran <;> rfl

theorem watch_noted {before : List String} (path : String) (answer : ReaderM FileSystem α) :
    fs.watch warnings before (Loading.ask (noted path answer)) =
      ((.ok (answer.run fs), warnings), before ++ [path]) := rfl

theorem watch_readFile {before : List String} (path : String) (failure : FileFailure → Failure) :
    fs.watch warnings before (Loading.readFile path failure) =
      (((fs.read path).mapError failure, warnings), before ++ [path]) := by
  have hread : (FileReader.read path : Watched _) = noted path (FileReader.read path) := rfl
  rw [Loading.readFile, watch_bind, hread, watch_noted, run_read]
  cases fs.read path <;> rfl

/-- A pass of steps that ask for one path each asks for their paths in order, for all of them unless
it fails. -/
theorem watch_mapM {f : α → Loading Watched β} {g : α → Except Failure β} {path : α → String}
    (h : ∀ item before, fs.watch warnings before (f item) =
      ((g item, warnings), before ++ [path item])) (before : List String) :
    ∃ asked, asked <+: items.map path ∧
      ((∃ out, items.mapM g = .ok out) → asked = items.map path) ∧
      fs.watch warnings before (items.mapM f) = ((items.mapM g, warnings), before ++ asked) := by
  induction items generalizing before with
  | nil => exact ⟨[], List.nil_prefix, fun _ => rfl, by rw [List.append_nil]; rfl⟩
  | cons item rest ih =>
    simp only [List.mapM_cons, watch_bind, h]
    cases g item with
    | error failure =>
      -- The step that fails has asked for its path, and nothing behind it is asked for.
      refine ⟨[path item], ?_, ?_, rfl⟩
      · exact List.prefix_append [path item] (rest.map path)
      · rintro ⟨_, hout⟩
        cases hout
    | ok b =>
      obtain ⟨asked, hasked, hall, hrest⟩ := ih (before ++ [path item])
      refine ⟨path item :: asked, List.cons_prefix_cons.mpr ⟨rfl, hasked⟩, ?_, ?_⟩
      · rintro ⟨_, hout⟩
        obtain ⟨_, -, hout⟩ := Refusal.bind_eq_ok.mp hout
        obtain ⟨bs, hbs, -⟩ := Refusal.bind_eq_ok.mp hout
        rw [hall ⟨bs, hbs⟩, List.map_cons]
      · dsimp only
        rw [hrest, ← List.append_cons]
        cases rest.mapM g <;> rfl

end LicenseNotice.FileSystem
