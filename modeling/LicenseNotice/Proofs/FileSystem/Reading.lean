import LicenseNotice.Command
import LicenseNotice.Proofs.FileSystem

/-! # Reading from a file system

What a computation that only reads files comes to over a file system, and its steps one by one.
-/

namespace LicenseNotice.FileSystem

set_option autoImplicit false

variable {α β : Type} {fs : FileSystem} {warnings later : List Warning} {failure : Failure}
  {x : Loading (ReaderM FileSystem) α} {f : α → Loading (ReaderM FileSystem) β}

/-- What a computation comes to over a file system, and the warnings it leaves. -/
def load (fs : FileSystem) (warnings : List Warning) (x : Loading (ReaderM FileSystem) α) :
    Except Failure α × List Warning :=
  (x.run.run warnings).run fs

theorem load_pure (a : α) : fs.load warnings (pure a) = (.ok a, warnings) := rfl

theorem load_throw : fs.load warnings (throw failure : Loading _ α) = (.error failure, warnings) :=
  rfl

theorem load_bind : fs.load warnings (x >>= f) =
    match fs.load warnings x with
    | (.ok a, between) => fs.load between (f a)
    | (.error failure, between) => (.error failure, between) := by
  change ((x >>= f).run.run warnings).run fs = _
  rw [ExceptT.run_bind, StateT.run_bind, ReaderT.run_bind, load]
  generalize (x.run.run warnings).run fs = ran
  obtain ⟨_ | a, between⟩ := ran <;> rfl

theorem load_bind_eq_error : fs.load warnings (x >>= f) = (.error failure, later) ↔
    fs.load warnings x = (.error failure, later) ∨
      ∃ a between, fs.load warnings x = (.ok a, between) ∧
        fs.load between (f a) = (.error failure, later) := by
  rw [load_bind]
  obtain ⟨_ | a, between⟩ := fs.load warnings x <;> simp

theorem run_read (path : String) :
    (FileReader.read path : ReaderM FileSystem (Except FileFailure String)).run fs = fs.read path :=
  rfl

theorem load_ask (action : ReaderM FileSystem α) :
    fs.load warnings (Loading.ask action) = (.ok (action.run fs), warnings) := rfl

theorem load_readFile (path : String) (failure : FileFailure → Failure) :
    fs.load warnings (Loading.readFile path failure) = ((fs.read path).mapError failure, warnings) := by
  rw [Loading.readFile, load_bind, load_ask, run_read]
  cases fs.read path <;> rfl

/-- A pass of steps that leave the warnings alone is a pass of what they come to. -/
theorem load_mapM {items : List α} {g : α → Except Failure β}
    (h : ∀ item, fs.load warnings (f item) = (g item, warnings)) :
    fs.load warnings (items.mapM f) = (items.mapM g, warnings) := by
  induction items with
  | nil => rfl
  | cons item rest ih =>
    rw [List.mapM_cons, List.mapM_cons, load_bind, h]
    cases g item with
    | error failure => rfl
    | ok b =>
      dsimp only
      rw [load_bind, ih]
      cases rest.mapM g <;> rfl

end LicenseNotice.FileSystem
