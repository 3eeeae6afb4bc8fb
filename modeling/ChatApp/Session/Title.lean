import ChatApp.Session.Device

/-!
# Whose name the title of Home shows

`authenticate` refreshes the title through `homeViewController?`, but no login screen ever gets that reference
(`TitleInv.noRef`), so the only fetch of a process is the one `checkIfUserIsLoggedIn` starts at launch.

- `TitleInv`: the title is still empty, or it is the answer of the fetch for the user at launch;
- `title_settled_iff`: once everything is settled, the title was built from the record of the signed-in user iff that
  user was already signed in at the last launch.
-/

namespace ChatApp

/-- All four fields are there and are strings. -/
def CompleteRecord (value : Node) : Prop :=
  ∃ dict, value.asDict = some dict ∧
    ∀ key ∈ [User.Const.email, User.Const.password, User.Const.username, User.Const.profileImageURL],
      ∃ s, dict.string? key = some s

namespace HomeViewController

/-- A complete record gives a title. -/
theorem fetchUserAndSetupNavBarTitle_of_complete (key : String) {value : Node} (h : CompleteRecord value) :
    ∃ title, fetchUserAndSetupNavBarTitle key value = .ok (some title) := by
  obtain ⟨dict, hd, hf⟩ := h
  obtain ⟨email, he⟩ := hf User.Const.email (by simp)
  obtain ⟨password, hp⟩ := hf User.Const.password (by simp)
  obtain ⟨username, hu⟩ := hf User.Const.username (by simp)
  obtain ⟨url, hurl⟩ := hf User.Const.profileImageURL (by simp)
  refine ⟨⟨⟨key, email, password, username, some url⟩, url, username⟩, ?_⟩
  simp [fetchUserAndSetupNavBarTitle, fetchedUser, setupNavBarWithUser, hd, Dict.string!_of_string? he,
    Dict.string!_of_string? hp, Dict.string!_of_string? hu, hurl, bind, Except.bind, pure, Except.pure]

theorem fetchedUser_id {key : String} {value : Node} {user : User} (h : fetchedUser key value = .ok (some user)) :
    user.id = key := by
  unfold fetchedUser at h
  split at h
  · cases h
  · simp only [bind, Except.bind, pure, Except.pure] at h
    repeat' split at h
    all_goals cases h
    rfl

/-- The title knows whose record it was built from. -/
theorem fetchUserAndSetupNavBarTitle_id {key : String} {value : Node} {title : TitleView}
    (h : fetchUserAndSetupNavBarTitle key value = .ok (some title)) : title.user.id = key := by
  simp only [fetchUserAndSetupNavBarTitle, bind, Except.bind] at h
  cases hu : fetchedUser key value with
  | error f => rw [hu] at h; cases h
  | ok user =>
    cases user with
    | none => rw [hu] at h; cases h
    | some user =>
      rw [hu] at h
      cases hp : user.profileImageURL with
      | none => simp only [setupNavBarWithUser, hp] at h; cases h
      | some url =>
        simp only [setupNavBarWithUser, hp] at h
        cases h
        exact fetchedUser_id hu

end HomeViewController

namespace Session

open Lib Lib.Runs

/-- The title view was built from the record of `u`. -/
def TitleOf (db : Node) (s : Session) (u : Uid) : Prop :=
  ∃ title, s.title = some title ∧
    HomeViewController.fetchUserAndSetupNavBarTitle u.val (userRecord db u) = .ok (some title)

/-- `u` is signed in, Home was uncovered for `u` and no login screen is up, nothing is outstanding, and the record of
`u` is complete. -/
structure Settled (db : Node) (s : Session) (u : Uid) : Prop where
  running : s.running = true
  signedIn : s.currentUser = some u
  uncovered : s.uncoveredFor = some u
  noLogin : ∀ id, .login id ∉ s.stack
  noSignIn : s.signIns = [] ∧ s.callbacks = []
  noFetch : s.fetches = []
  complete : CompleteRecord (userRecord db u)

/-- The state of the one fetch of a process. -/
def FetchState (db : Node) (s : Session) : Prop :=
  match s.launchUser with
  | none => s.fetches = [] ∧ s.title = none
  | some u => (s.fetches = [u] ∧ s.title = none) ∨ (s.fetches = [] ∧
      HomeViewController.fetchUserAndSetupNavBarTitle u.val (userRecord db u) = .ok s.title)

structure TitleInv (db : Node) (s : Session) : Prop where
  noRef : ∀ id, s.homeViewController id = false
  fetch : s.running = true → FetchState db s

variable {count : String → Nat} {db : Node} {s s' : Session}

/-- A move that touches neither the references nor the fetch nor the title. -/
theorem TitleInv.frame (hi : TitleInv db s) (hv : s'.homeViewController = s.homeViewController)
    (hf : s'.fetches = s.fetches) (ht : s'.title = s.title) (hl : s'.launchUser = s.launchUser)
    (hr : s'.running = true → s.running = true) : TitleInv db s' := by
  refine ⟨fun id => by rw [hv]; exact hi.noRef id, fun h => ?_⟩
  have := hi.fetch (hr h)
  unfold FetchState at this ⊢
  rw [hf, ht, hl]
  exact this

theorem TitleInv.presentLoginView (hi : TitleInv db s) : TitleInv db s.presentLoginView := by
  refine ⟨fun id => ?_, hi.fetch⟩
  by_cases h : id = s.next
  · subst h; simp [Session.presentLoginView]
  · simp only [Session.presentLoginView, Function.update_of_ne h]
    exact hi.noRef id

/-- At launch the fetch of the current user starts, if there is one. -/
theorem titleInv_launch (onScreen : Bool) : TitleInv db (s.launch onScreen) := by
  unfold launch checkIfUserIsLoggedIn
  cases hu : s.currentUser with
  | none =>
    cases onScreen with
    | false =>
      simp only [Bool.false_eq_true, if_false]
      exact ⟨fun _ => rfl, fun _ => ⟨rfl, rfl⟩⟩
    | true =>
      simp only [if_true]
      exact TitleInv.presentLoginView ⟨fun _ => rfl, fun _ => ⟨rfl, rfl⟩⟩
  | some u =>
    simp only [fetchUserAndSetupNavBarTitle]
    exact ⟨fun _ => rfl, fun _ => Or.inl ⟨rfl, rfl⟩⟩

/-- The handler of a sign-in has no reference to Home and starts no fetch. -/
theorem TitleInv.authenticated (hi : TitleInv db s) (login : Nat) (result : Option Uid) :
    TitleInv db (s.authenticated login result) := by
  cases result with
  | none => exact hi.frame rfl rfl rfl rfl id
  | some u =>
    simp only [Session.authenticated, hi.noRef login, Bool.false_eq_true, if_false]
    exact hi.frame rfl rfl rfl rfl id

theorem TitleInv.fetchAnswered (hi : TitleInv db s) (hr : s.running = true) {uid : Uid} (hm : uid ∈ s.fetches) :
    TitleInv db (s.fetchAnswered db uid) := by
  -- the fetch that is answered is the one for the user at launch
  obtain ⟨hl, hf, ht⟩ : s.launchUser = some uid ∧ s.fetches = [uid] ∧ s.title = none := by
    have h := hi.fetch hr
    unfold FetchState at h
    cases hl : s.launchUser with
    | none => rw [hl] at h; rw [h.1] at hm; cases hm
    | some u =>
      rw [hl] at h
      rcases h with ⟨hf, ht⟩ | ⟨hf, -⟩
      · rw [hf, List.mem_singleton] at hm
        subst hm
        exact ⟨rfl, hf, ht⟩
      · rw [hf] at hm; cases hm
  have he : s.fetches.erase uid = [] := by rw [hf]; simp
  unfold Session.fetchAnswered
  split
  · rename_i title hok
    refine ⟨hi.noRef, fun _ => ?_⟩
    simp only [FetchState, hl, he]
    exact Or.inr ⟨trivial, hok⟩
  · rename_i hok
    refine ⟨hi.noRef, fun _ => ?_⟩
    simp only [FetchState, hl, he, ht]
    exact Or.inr ⟨trivial, hok⟩
  · exact ⟨hi.noRef, fun h => by cases h⟩

theorem TitleInv.handleSendMessage (hi : TitleInv db s) (user : Option User) (text timestamp : String) :
    TitleInv db (s.handleSendMessage user text timestamp) := by
  unfold Session.handleSendMessage
  split
  · exact hi.frame rfl rfl rfl rfl id
  · exact ⟨hi.noRef, fun h => by cases h⟩

theorem move_titleInv {e : SessionEvent} (hi : TitleInv db s) (h : Move db s e s') : TitleInv db s' := by
  cases h with
  | launch onScreen => exact titleInv_launch onScreen
  | loginButton => exact hi.frame rfl rfl rfl rfl id
  | loginRefused => exact hi
  | signInAnswered => exact hi.frame rfl rfl rfl rfl id
  | signInCallback hr hl =>
    refine TitleInv.authenticated ?_ _ _
    exact hi.frame rfl rfl rfl rfl id
  | okayAction => exact hi.frame rfl rfl rfl rfl id
  | logout signOutSucceeds =>
    refine TitleInv.presentLoginView ?_
    cases signOutSucceeds
    · exact hi
    · exact hi.frame rfl rfl rfl rfl id
  | fetchAnswered hr hm => exact hi.fetchAnswered hr hm
  | forcedSignOut => exact hi.frame rfl rfl rfl rfl id
  | chatLogButton => exact hi.frame rfl rfl rfl rfl id
  | backButton => exact hi.frame rfl rfl rfl rfl id
  | send => exact hi.handleSendMessage _ _ _

theorem run_titleInv {user : Option Uid} {es : List SessionEvent}
    (h : run (step count db) (initial user) es = some s) : TitleInv db s :=
  run_inv (fun _ _ _ hi hs => move_titleInv hi (move_of_step hs)) h ⟨fun _ => rfl, fun h => (by cases h)⟩

/-- **The title of Home.** In a settled state it was built from the record of the signed-in user iff that user was
already signed in when the app was launched. -/
theorem title_settled_iff {user : Option Uid} {es : List SessionEvent} {u : Uid}
    (h : run (step count db) (initial user) es = some s) (hs : Settled db s u) :
    TitleOf db s u ↔ s.launchUser = some u := by
  have hfetch := (run_titleInv h).fetch hs.running
  unfold FetchState at hfetch
  constructor
  · rintro ⟨title, ht, hok⟩
    cases hl : s.launchUser with
    | none => rw [hl] at hfetch; rw [hfetch.2] at ht; cases ht
    | some v =>
      rw [hl] at hfetch
      rcases hfetch with ⟨-, hn⟩ | ⟨-, hv⟩
      · rw [hn] at ht; cases ht
      · rw [ht] at hv
        have huv : u.val = v.val :=
          (HomeViewController.fetchUserAndSetupNavBarTitle_id hok).symm.trans
            (HomeViewController.fetchUserAndSetupNavBarTitle_id hv)
        rw [Uid.ext huv]
  · intro hl
    rw [hl] at hfetch
    obtain ⟨title, hok⟩ := HomeViewController.fetchUserAndSetupNavBarTitle_of_complete u.val hs.complete
    rcases hfetch with ⟨hf, -⟩ | ⟨-, hu⟩
    · rw [hs.noFetch] at hf; cases hf
    · rw [hok] at hu
      exact ⟨title, (Except.ok.inj hu).symm, hok⟩

/-- The database with the record of one user. -/
def oneUser : Node :=
  .node [("users", .node [("u1", .node [("email", Node.string "me@mail.org"), ("password", Node.string "secret"),
    ("username", Node.string "me"), ("profileImageURL", Node.string "https://pictures/me.jpg")])])]

def u1 : Uid := ⟨"u1", by decide⟩

theorem oneUser_complete : CompleteRecord (userRecord oneUser u1) := by
  refine ⟨_, rfl, ?_⟩
  simp only [List.forall_mem_cons, List.not_mem_nil, false_implies, implies_true, and_true]
  exact ⟨⟨_, rfl⟩, ⟨_, rfl⟩, ⟨_, rfl⟩, ⟨_, rfl⟩⟩

/-- Launched with the user signed in: the title shows the user once the fetch is answered. -/
theorem title_after_launch : ∃ s,
    run (step String.length oneUser) (initial (some u1)) [.launch true, .fetchAnswered u1] = some s ∧
    Settled oneUser s u1 ∧ TitleOf oneUser s u1 := by
  have hrun : ∃ s, run (step String.length oneUser) (initial (some u1)) [.launch true, .fetchAnswered u1] = some s ∧
      Settled oneUser s u1 ∧ s.launchUser = some u1 :=
    ⟨_, rfl, ⟨rfl, rfl, rfl, fun _ h => (nomatch h), ⟨rfl, rfl⟩, rfl, oneUser_complete⟩, rfl⟩
  obtain ⟨s, hs, hset, hl⟩ := hrun
  exact ⟨s, hs, hset, (title_settled_iff hs hset).2 hl⟩

/-- Launched with nobody signed in: after the sign-in the login screen is gone and the title is still missing. -/
theorem title_missing_after_login : ∃ s, run (step String.length oneUser) (initial none) [.launch true,
      .loginButton (some "me@mail.org") (some "secret"), .signInAnswered 1 (some u1), .signInCallback 1] = some s ∧
    Settled oneUser s u1 ∧ ¬TitleOf oneUser s u1 := by
  refine ⟨_, rfl, ⟨rfl, rfl, rfl, fun _ h => (nomatch h), ⟨rfl, rfl⟩, rfl, oneUser_complete⟩, ?_⟩
  rintro ⟨title, ht, -⟩
  cases ht

end Session

end ChatApp
