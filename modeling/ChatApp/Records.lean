import ChatApp.Firebase.Reference

/-!
# The records of the app: what the screens write and how they read it back

- `Chat` and `User` with the keys of their records;
- the writers: the dictionaries of `ChatLogViewController.handleSendMessage` and of
  `RegisterViewController.handleRegister`, and the nodes they become (`chatNode`, `userNode`);
- the readers: `HomeViewController.observeMessages`, which takes every dictionary and replaces what is missing by the
  empty string; the strict reader of `fetchUserAndSetupNavBarTitle`, which traps; the tolerant one of
  `NewMessageTableViewController.fetchUser`;
- round trips: `chat_chatNode` (the sender survives only if there is one) and `fetchedUser_userNode`,
  `fetchUser_userNode` (both readers give back the user that was written).
-/

namespace ChatApp

namespace Constant

def users : String := "users"
def chats : String := "chats"

end Constant

structure Chat where
  message : String
  sender : String
  receiver : String
  timestamp : String
  deriving DecidableEq, Repr

namespace Chat.Const

def message : String := "message"
def sender : String := "sender"
def receiver : String := "receiver"
def timestamp : String := "timestamp"

end Chat.Const

structure User where
  id : String
  email : String
  password : String
  username : String
  profileImageURL : Option String
  deriving DecidableEq, Repr

namespace User.Const

def email : String := "email"
def password : String := "password"
def username : String := "username"
def profileImageURL : String := "profileImageURL"

end User.Const

/-- The keys of the two records. -/
def recordKeys : List String :=
  [Chat.Const.message, Chat.Const.sender, Chat.Const.receiver, Chat.Const.timestamp, User.Const.email,
    User.Const.password, User.Const.username, User.Const.profileImageURL]

theorem recordKeys_valid : ∀ k ∈ recordKeys, FValidation.isValidKey k = true ∧ integerKey k = none := by decide

/-- A node with one of the keys is read as a dictionary. -/
theorem asDict_recordNode {cs : Dict} {k : String} {x : Node} (hk : k ∈ recordKeys) (h : (k, x) ∈ cs) :
    Node.asDict (.node cs) = some cs :=
  Node.asDict_node_of_key h (recordKeys_valid k hk).2

/-! ## Messages -/

namespace ChatLogViewController

/-- The dictionary of a message; the uid of the sender stays optional. -/
def values (text : String) (currentUser : Option Uid) (receiver timestamp : String) : List (String × Option String) :=
  [(Chat.Const.message, some text), (Chat.Const.sender, currentUser.map Uid.val), (Chat.Const.receiver, some receiver),
    (Chat.Const.timestamp, some timestamp)]

/-- `handleSendMessage` unwraps the user of the screen and hands the dictionary to `updateChildValues`. -/
def handleSendMessage (text : String) (currentUser : Option Uid) (user : Option User) (timestamp : String) :
    Except Fault (List (String × Option String)) :=
  match user with
  | none => .error .nilUnwrap
  | some user => do
    Ref.validUpdate "updateChildValues:" (values text currentUser user.id timestamp)
    return values text currentUser user.id timestamp

theorem handleSendMessage_ok {text timestamp : String} {currentUser : Option Uid} {user : Option User}
    {vs : List (String × Option String)} (h : handleSendMessage text currentUser user timestamp = .ok vs) :
    ∃ u, user = some u ∧ vs = values text currentUser u.id timestamp := by
  cases user with
  | none => cases h
  | some u =>
    refine ⟨u, rfl, ?_⟩
    simp only [handleSendMessage, bind, Except.bind] at h
    split at h
    · cases h
    · exact (Except.ok.inj h).symm

/-- The node of a message, under its new key. -/
def chatNode (text : String) (currentUser : Option Uid) (receiver timestamp : String) : Node :=
  .node (((Chat.Const.timestamp, Node.string timestamp) :: (Chat.Const.receiver, Node.string receiver) ::
    (currentUser.map fun uid => (Chat.Const.sender, Node.string uid.val)).toList) ++
    [(Chat.Const.message, Node.string text)])

theorem recordNode_values (text : String) (currentUser : Option Uid) (receiver timestamp : String) :
    Ref.recordNode (values text currentUser receiver timestamp) = chatNode text currentUser receiver timestamp := by
  cases currentUser <;> rfl

/-- `chatNode` is what `updateChildValues` writes at a key that has no value yet. -/
theorem get_updateChildValues_chatNode {r : Ref} {db : Node} (hdb : db.get r.path = .empty) (text : String)
    (currentUser : Option Uid) (receiver timestamp : String) :
    (r.updateChildValues (values text currentUser receiver timestamp) db).get r.path =
      chatNode text currentUser receiver timestamp := by
  have hnd : ((values text currentUser receiver timestamp).map Prod.fst).Nodup := by
    simp only [values, List.map_cons, List.map_nil]; decide
  rw [Ref.get_updateChildValues_of_empty hdb (by simp only [values, List.forall_mem_cons]; decide) hnd,
    recordNode_values]

end ChatLogViewController

namespace HomeViewController

/-- The chat that `observeMessages` makes of a dictionary. -/
def chat (dict : Dict) : Chat where
  message := (dict.string? Chat.Const.message).getD ""
  sender := (dict.string? Chat.Const.sender).getD ""
  receiver := (dict.string? Chat.Const.receiver).getD ""
  timestamp := (dict.string? Chat.Const.timestamp).getD ""

/-- The chat of a child of `chats`, if its value is a dictionary. -/
def chat? (value : Node) : Option Chat := value.asDict.map chat

/-- The `childAdded` handler of `observeMessages`. -/
def observeMessages (chats : List Chat) (value : Node) : List Chat :=
  match value.asDict with
  | some dict => chats ++ [chat dict]
  | none => chats

theorem observeMessages_eq (chats : List Chat) (value : Node) :
    observeMessages chats value = chats ++ (chat? value).toList := by
  unfold observeMessages chat?
  cases value.asDict <;> simp

/-- The list that the handler makes of several values. -/
theorem foldl_observeMessages (values : List Node) (chats : List Chat) :
    values.foldl observeMessages chats = chats ++ values.filterMap chat? := by
  induction values generalizing chats with
  | nil => simp
  | cons value values ih =>
    rw [List.foldl_cons, ih, observeMessages_eq]
    cases hx : chat? value <;> simp [hx]

/-- **The round trip of a message.** Everything survives, except that a send without a user has the empty sender. -/
theorem chat_chatNode (text : String) (currentUser : Option Uid) (receiver timestamp : String) :
    chat? (ChatLogViewController.chatNode text currentUser receiver timestamp) =
      some ⟨text, (currentUser.map Uid.val).getD "", receiver, timestamp⟩ := by
  have hdict : (ChatLogViewController.chatNode text currentUser receiver timestamp).asDict = some _ :=
    asDict_recordNode (k := Chat.Const.message) (by decide) (List.mem_append_right _ List.mem_cons_self)
  rw [chat?, hdict]
  cases currentUser <;>
    simp [chat, Dict.string?, List.lookup_cons, Chat.Const.message, Chat.Const.sender, Chat.Const.receiver,
      Chat.Const.timestamp]

end HomeViewController

/-! ## Users -/

namespace RegisterViewController

/-- The dictionary that `handleRegister` builds once it has the URL of the picture. -/
def values (username email password profileImageURL : String) : List (String × Option String) :=
  [(User.Const.username, some username), (User.Const.email, some email), (User.Const.password, some password),
    (User.Const.profileImageURL, some profileImageURL)]

/-- The record of a user: exactly four string fields. -/
def userNode (username email password profileImageURL : String) : Node :=
  .node [(User.Const.profileImageURL, Node.string profileImageURL), (User.Const.password, Node.string password),
    (User.Const.email, Node.string email), (User.Const.username, Node.string username)]

/-- The reference of a user's record. -/
def userReference (uid : Uid) : Except Fault Ref := do
  let users ← Ref.root.child Constant.users
  users.child uid.val

theorem userReference_eq (uid : Uid) : userReference uid = .ok ⟨[Constant.users, uid.val]⟩ := by
  have hroot : Ref.root.child Constant.users = .ok ⟨[Constant.users]⟩ := by rfl
  simp only [userReference, hroot, bind, Except.bind]
  exact Ref.child_uid (by simp) uid

/-- The call of `updateChildValues` in `handleAddUserIntoDatabaseWithUID`, up to its answer. -/
def handleAddUserIntoDatabaseWithUID (uid : Uid) (values : List (String × Option String)) : Except Fault Ref := do
  let ref ← userReference uid
  Ref.validUpdate "updateChildValues:withCompletionBlock:" values
  return ref

theorem get_updateChildValues_userNode {r : Ref} {db : Node} (hdb : db.get r.path = .empty)
    (username email password url : String) :
    (r.updateChildValues (values username email password url) db).get r.path =
      userNode username email password url := by
  have hnd : ((values username email password url).map Prod.fst).Nodup := by
    simp only [values, List.map_cons, List.map_nil]; decide
  rw [Ref.get_updateChildValues_of_empty hdb (by simp only [values, List.forall_mem_cons]; decide) hnd]
  rfl

/-- All strings of the record can be stored. -/
def Fits (username email password profileImageURL : String) : Prop :=
  FValidation.fits username = true ∧ FValidation.fits email = true ∧ FValidation.fits password = true ∧
    FValidation.fits profileImageURL = true

/-- The update of a user's record raises only when one of its strings is too long. -/
theorem validUpdate_values (fn : String) {username email password url : String} :
    Ref.validUpdate fn (values username email password url) = .ok () ↔ Fits username email password url := by
  rw [Ref.validUpdate_eq_ok]
  · simp [values, Fits]
  · simp only [values, List.forall_mem_cons, List.not_mem_nil, false_implies, implies_true, and_true]
    decide

theorem handleAddUserIntoDatabaseWithUID_eq_ok {uid : Uid} {username email password url : String} {ref : Ref} :
    handleAddUserIntoDatabaseWithUID uid (values username email password url) = .ok ref ↔
      Fits username email password url ∧ ref = ⟨[Constant.users, uid.val]⟩ := by
  rw [← validUpdate_values "updateChildValues:withCompletionBlock:"]
  simp only [handleAddUserIntoDatabaseWithUID, userReference_eq, bind, Except.bind]
  cases Ref.validUpdate "updateChildValues:withCompletionBlock:" (values username email password url) with
  | error f => simp
  | ok u => simp [pure, Except.pure, eq_comm]

end RegisterViewController

/-- The view that `setupNavBarWithUser` puts into the navigation bar. -/
structure TitleView where
  /-- The record the view was built from. -/
  user : User
  imageURL : String
  nameLabel : String
  deriving DecidableEq, Repr

namespace HomeViewController

/-- The user that `fetchUserAndSetupNavBarTitle` reads from a snapshot; three of its casts trap. -/
def fetchedUser (key : String) (value : Node) : Except Fault (Option User) :=
  match value.asDict with
  | none => .ok none
  | some dic => do
    let email ← dic.string! User.Const.email
    let password ← dic.string! User.Const.password
    let username ← dic.string! User.Const.username
    return some ⟨key, email, password, username, dic.string? User.Const.profileImageURL⟩

/-- The URL of the picture is unwrapped. -/
def setupNavBarWithUser (user : User) : Except Fault TitleView :=
  match user.profileImageURL with
  | some url => .ok ⟨user, url, user.username⟩
  | none => .error .nilUnwrap

/-- The answer of a profile fetch: the new title view, if the snapshot is a dictionary. -/
def fetchUserAndSetupNavBarTitle (key : String) (value : Node) : Except Fault (Option TitleView) := do
  match ← fetchedUser key value with
  | none => return none
  | some user => return some (← setupNavBarWithUser user)

end HomeViewController

namespace NewMessageTableViewController

/-- The user that `fetchUser` makes of a dictionary. -/
def user (key : String) (dic : Dict) : User :=
  let email := (dic.string? User.Const.email).getD ""
  let password := (dic.string? User.Const.password).getD ""
  let username := (dic.string? User.Const.username).getD ""
  let profileImageURL := (dic.string? User.Const.profileImageURL).getD ""
  ⟨key, email, password, username, some profileImageURL⟩

/-- The `childAdded` handler of `fetchUser`. -/
def fetchUser (users : List User) (key : String) (value : Node) : List User :=
  match value.asDict with
  | some dic => users ++ [user key dic]
  | none => users

end NewMessageTableViewController

section RoundTrip

open RegisterViewController (userNode)

variable (key username email password url : String)

theorem asDict_userNode : (userNode username email password url).asDict = some
    [(User.Const.profileImageURL, Node.string url), (User.Const.password, Node.string password),
      (User.Const.email, Node.string email), (User.Const.username, Node.string username)] :=
  asDict_recordNode (k := User.Const.profileImageURL) (by decide) List.mem_cons_self

/-- The strict reader returns the user that was written. -/
theorem fetchedUser_userNode : HomeViewController.fetchedUser key (userNode username email password url) =
    .ok (some ⟨key, email, password, username, some url⟩) := by
  rw [HomeViewController.fetchedUser, asDict_userNode]
  simp [Dict.string!, Dict.string?, List.lookup_cons, User.Const.email, User.Const.password, User.Const.username,
    User.Const.profileImageURL, bind, Except.bind, pure, Except.pure]

/-- The title view is built without a trap. -/
theorem fetchUserAndSetupNavBarTitle_userNode :
    HomeViewController.fetchUserAndSetupNavBarTitle key (userNode username email password url) =
      .ok (some ⟨⟨key, email, password, username, some url⟩, url, username⟩) := by
  rw [HomeViewController.fetchUserAndSetupNavBarTitle, fetchedUser_userNode]
  rfl

/-- The tolerant reader returns the same user. -/
theorem fetchUser_userNode (users : List User) :
    NewMessageTableViewController.fetchUser users key (userNode username email password url) =
      users ++ [⟨key, email, password, username, some url⟩] := by
  rw [NewMessageTableViewController.fetchUser, asDict_userNode]
  simp [NewMessageTableViewController.user, Dict.string?, List.lookup_cons, User.Const.email, User.Const.password,
    User.Const.username, User.Const.profileImageURL]

end RoundTrip

end ChatApp
