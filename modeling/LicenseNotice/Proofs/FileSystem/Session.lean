import LicenseNotice.Proofs.FileSystem.Reading

/-! # Reading in a session

In a session a computation can write and print. Those that load the configuration, the manifests and
the license texts do neither: each comes to what it comes to over the files alone, and leaves the
session as it is, also where it fails.
-/

namespace LicenseNotice.Session

set_option autoImplicit false

variable {α β : Type} {session later : Session} {warnings : List Warning}

theorem act_bind {x : Loading (StateM Session) α} {f : α → Loading (StateM Session) β} :
    session.act warnings (x >>= f) =
      match session.act warnings x with
      | ((.ok a, between), later) => later.act between (f a)
      | ((.error failure, between), later) => ((.error failure, between), later) := by
  change ((x >>= f).run.run warnings).run session = _
  rw [ExceptT.run_bind, StateT.run_bind, StateT.run_bind, act]
  generalize (x.run.run warnings).run session = ran
  obtain ⟨⟨_ | a, between⟩, later⟩ := ran <;> rfl

theorem bind_eq_look {x : StateM Session α} {y : ReaderM FileSystem α} {f : α → StateM Session β}
    {g : α → ReaderM FileSystem β} (hx : x = look y) (hf : ∀ a, f a = look (g a)) :
    x >>= f = look (y >>= g) := by
  rw [hx, funext hf]
  rfl

/-- In a session `x` comes to what `y` comes to over its files, and leaves the session as it is. -/
def OnlyReads (x : Loading (StateM Session) α) (y : Loading (ReaderM FileSystem) α) : Prop :=
  ∀ (session : Session) warnings,
    session.act warnings x = (session.files.load warnings y, session)

namespace OnlyReads

variable {x : Loading (StateM Session) α} {y : Loading (ReaderM FileSystem) α}
  {f : α → Loading (StateM Session) β} {g : α → Loading (ReaderM FileSystem) β}

protected theorem pure (a : α) : OnlyReads (pure a) (pure a) := fun _ _ => rfl

protected theorem throw (failure : Failure) :
    OnlyReads (throw failure : Loading _ α) (throw failure) := fun _ _ => rfl

theorem warn (warning : Warning) : OnlyReads (Loading.warn warning) (Loading.warn warning) :=
  fun _ _ => rfl

protected theorem bind (hx : OnlyReads x y) (hf : ∀ a, OnlyReads (f a) (g a)) :
    OnlyReads (x >>= f) (y >>= g) := by
  intro session warnings
  rw [act_bind, FileSystem.load_bind, hx]
  match session.files.load warnings y with
  | (.error _, _) => rfl
  | (.ok a, between) => exact hf a session between

theorem refuse (failure : Failure) :
    OnlyReads ((throw failure : Loading _ α) >>= f) (throw failure >>= g) := fun _ _ => rfl

theorem choose {c : Prop} [Decidable c] {x' : Loading (StateM Session) α}
    {y' : Loading (ReaderM FileSystem) α} (h : OnlyReads x y) (h' : OnlyReads x' y') :
    OnlyReads (if c then x else x') (if c then y else y') := by
  split
  case isTrue => exact h
  case isFalse => exact h'

theorem mapM (hf : ∀ a, OnlyReads (f a) (g a)) (items : List α) :
    OnlyReads (items.mapM f) (items.mapM g) := by
  induction items with
  | nil => exact .pure []
  | cons item rest ih =>
    rw [List.mapM_cons, List.mapM_cons]
    exact (hf item).bind fun _ => ih.bind fun _ => .pure _

theorem ask {question : StateM Session α} {answer : ReaderM FileSystem α}
    (h : question = look answer) : OnlyReads (Loading.ask question) (Loading.ask answer) := by
  rw [h]
  exact fun _ _ => rfl

theorem readFile (path : String) (failure : FileFailure → Failure) :
    OnlyReads (Loading.readFile path failure) (Loading.readFile path failure) := by
  refine .bind (ask rfl) fun found => ?_
  cases found with
  | error cause => exact .throw _
  | ok text => exact .pure text

theorem ofMerging (merging : Merging α) :
    OnlyReads (Loading.ofMerging merging) (Loading.ofMerging merging) := fun _ _ => rfl

end OnlyReads

section Loaders

variable (path : String)

theorem onlyReads_loadConfigFile : OnlyReads (Config.loadFile path) (Config.loadFile path) := by
  rw [Config.loadFile, Config.loadFile]
  refine .bind (.readFile path _) fun text => ?_
  cases (Toml.parse? text).bind (Config.ofDatum? .toml) with
  | none => exact .throw _
  | some config =>
    dsimp only
    cases config.issue? with
    | some issue => exact .throw _
    | none => exact .pure config

theorem onlyReads_loadConfig (path : Option String) :
    OnlyReads (Config.load path) (Config.load path) := by
  cases path with
  | some path => exact onlyReads_loadConfigFile path
  | none =>
    rw [Config.load.eq_def, Config.load.eq_def]
    refine .bind (.ask rfl) fun directory => ?_
    rw [Config.loadFrom, Config.loadFrom]
    refine .bind (.ask rfl) fun found => ?_
    cases found with
    | true => exact onlyReads_loadConfigFile _
    | false => exact .pure _

theorem onlyReads_loadManifest : OnlyReads (Manifest.load path) (Manifest.load path) := by
  rw [Manifest.load, Manifest.load]
  refine .bind (.ask rfl) fun found => .choose ?_ (.refuse _)
  refine .bind (.readFile path _) fun text => .choose (.refuse _) ?_
  dsimp only
  cases Manifest.ofText? (Markup.ofPath path) text with
  | none => exact .throw _
  | some manifest => exact .choose (.bind (.warn _) fun _ => .pure _) (.pure _)

theorem unreadOnWay?_eq_look (piece : String) :
    (Manifest.unreadOnWay? path piece : StateM Session _) =
      look (Manifest.unreadOnWay? path piece) := by
  rw [Manifest.unreadOnWay?, Manifest.unreadOnWay?]
  split
  · rfl
  · rfl

theorem searchBase_eq_look (pieces : List String) :
    (Manifest.searchBase path pieces : StateM Session _) = look (Manifest.searchBase path pieces) := by
  induction pieces generalizing path with
  | nil => rfl
  | cons piece rest ih =>
    have hrest : ∀ (passable : Bool) next,
        (if passable then Manifest.searchBase next rest else pure (.ok none) : StateM Session _) =
          look (if passable then Manifest.searchBase next rest else pure (.ok none)) := by
      rintro (_ | _) next
      · rfl
      · exact ih next
    rw [Manifest.searchBase, Manifest.searchBase]
    refine bind_eq_look (unreadOnWay?_eq_look path piece) fun unread => ?_
    cases unread with
    | some cause => rfl
    | none =>
      dsimp only
      split
      · exact bind_eq_look rfl fun passable => hrest passable _
      · exact bind_eq_look rfl fun passable => hrest passable _

theorem base?_eq_look : (Manifest.base? path : StateM Session _) = look (Manifest.base? path) := by
  rw [Manifest.base?, Manifest.base?]
  split
  · exact searchBase_eq_look _ _
  · exact searchBase_eq_look _ _

theorem find_eq_look : (Manifest.find path : StateM Session _) = look (Manifest.find path) := by
  refine bind_eq_look (base?_eq_look path) fun base => ?_
  match base with
  | .error _ => rfl
  | .ok none => rfl
  | .ok (some base) => rfl

theorem onlyReads_requireReadable :
    OnlyReads (Manifest.requireReadable path) (Manifest.requireReadable path) := by
  rw [Manifest.requireReadable, Manifest.requireReadable]
  refine .bind (.ask (base?_eq_look path)) fun base => ?_
  match base with
  | .error (unread, cause) => exact .throw _
  | .ok none => exact .pure _
  | .ok (some base) =>
    refine .bind (.ask rfl) fun unread => ?_
    cases unread with
    | none => exact .pure _
    | some refusal => exact .throw _

theorem onlyReads_filesAt : OnlyReads (Manifest.filesAt path) (Manifest.filesAt path) := by
  rw [Manifest.filesAt, Manifest.filesAt]
  refine .bind (.ask rfl) fun directory => .choose ?_ (.pure _)
  refine .bind (onlyReads_requireReadable path) fun _ => ?_
  exact .bind (.ask (find_eq_look path)) fun files => .choose (.refuse _) (.pure _)

theorem onlyReads_loadGraph : OnlyReads (Graph.load path) (Graph.load path) := by
  rw [Graph.load, Graph.load]
  refine .bind (onlyReads_filesAt path) fun files => ?_
  refine .bind (.mapM (fun file => ?_) files) fun manifests => .ofMerging _
  exact .bind (onlyReads_loadManifest file) fun _ => .pure _

theorem onlyReads_loadTexts (root : String) (sections : List Section) :
    OnlyReads (LicenseTexts.load root sections) (LicenseTexts.load root sections) := by
  rw [LicenseTexts.load, LicenseTexts.load]
  refine .bind (.mapM (fun key => ?_) _) fun entries => .pure _
  exact .bind (.readFile _ _) fun text => .pure _

end Loaders

end LicenseNotice.Session
