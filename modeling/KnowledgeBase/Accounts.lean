import KnowledgeBase.Redaction
import KnowledgeBase.Table

/-! The accounts: registration, login, the token that a login gives and the account it
stands for. -/

namespace KnowledgeBase

inductive UserRole where
  | admin | user
  deriving DecidableEq

structure User where
  userId : Nat
  email : Text
  fullName : Text
  hashedPassword : Text
  role : UserRole
  isActive : Bool
  deriving DecidableEq

/-- The users table, with its two unique keys. -/
structure Users where
  rows : List User
  ids : (rows.map User.userId).Nodup
  emails : (rows.map User.email).Nodup

namespace Users

def get (t : Users) (id : Nat) : Option User := Table.lookup User.userId t.rows id

def byEmail (t : Users) (email : Text) : Option User := Table.lookup User.email t.rows email

/-- An insert that neither key refuses. -/
def insert (t : Users) (user : User) : Option Users :=
  if h : ((t.rows ++ [user]).map User.userId).Nodup ∧ ((t.rows ++ [user]).map User.email).Nodup then
    some ⟨t.rows ++ [user], h.1, h.2⟩
  else none

/-- What changes neither key. -/
def grade (id : Nat) (role : UserRole) (isActive : Bool) (rows : List User) : List User :=
  Table.update (fun r => r.userId = id) (fun r => { r with role, isActive }) rows

theorem map_grade {β : Type} (key : User → β) (id : Nat) (role : UserRole) (isActive : Bool)
    (hkey : ∀ r : User, key { r with role, isActive } = key r) (rows : List User) :
    (grade id role isActive rows).map key = rows.map key := by
  rw [grade, Table.update, List.map_map]
  apply List.map_congr_left
  intro r _
  rw [Function.comp_apply]
  split
  · exact hkey r
  · rfl

theorem grade_ids (t : Users) (id : Nat) (role : UserRole) (isActive : Bool) :
    ((grade id role isActive t.rows).map User.userId).Nodup := by
  rw [map_grade User.userId id role isActive fun _ => rfl]
  exact t.ids

theorem grade_emails (t : Users) (id : Nat) (role : UserRole) (isActive : Bool) :
    ((grade id role isActive t.rows).map User.email).Nodup := by
  rw [map_grade User.email id role isActive fun _ => rfl]
  exact t.emails

/-- An administrator's edit of the database. -/
def edit (t : Users) (id : Nat) (role : UserRole) (isActive : Bool) : Users :=
  ⟨grade id role isActive t.rows, t.grade_ids id role isActive, t.grade_emails id role isActive⟩

end Users

structure Claims where
  sub : Nat
  role : UserRole
  exp : Nat
  deriving DecidableEq

/-- The password hash and the signature of the tokens. -/
structure Security where
  hashpw : Text → Text → Text
  checkpw : Text → Text → Bool
  encode : Claims → Text
  decode : Nat → Text → Option Claims

def maxPasswordBytes : Nat := 72

def bytes (password : Text) : Nat := (String.ofList password).utf8ByteSize

/-- A password checks against its own hash, and a token is read back until it expires. -/
structure Security.Lawful (sec : Security) : Prop where
  check_hash : ∀ password salt, bytes password ≤ maxPasswordBytes →
    sec.checkpw password (sec.hashpw password salt) = true
  decode_encode : ∀ now claims,
    sec.decode now (sec.encode claims) = if claims.exp < now then none else some claims

structure AuthSettings where
  lower : Text → Text
  allowedEmailDomain : Text
  accessTokenExpireMinutes : Nat
  demoLogin : Option (Text × Text)

structure AuthError where
  status : Nat
  detail : Text
  deriving DecidableEq

def passwordComplexity (u : Unicode) : List ((Char → Bool) × String) :=
  [(asciiUpper, "an uppercase letter"),
   (fun c => asciiLetter c && !asciiUpper c, "a lowercase letter"),
   (u.isDigit, "a digit"),
   (fun c => !(asciiLetter c || asciiDigit c), "a special character")]

def missing (u : Unicode) (password : Text) : List String :=
  ((passwordComplexity u).filter fun p => !password.any p.1).map Prod.snd

/-- What a registration brings, checked. It names no role. -/
structure UserRegister (u : Unicode) (emailStr : Text → Bool) where
  email : Text
  fullName : Text
  password : Text
  email_ok : emailStr email = true
  name_ok : 1 ≤ fullName.length ∧ fullName.length ≤ 255
  password_ok : 8 ≤ password.length ∧ password.length ≤ 128
  complex : missing u password = []

namespace Auth

variable (cfg : AuthSettings) (sec : Security)

def getByEmail (t : Users) (email : Text) : Option User := t.byEmail (cfg.lower email)

def hashPassword (password salt : Text) : Except Text Text :=
  if maxPasswordBytes < bytes password then
    .error "Password must be at most 72 bytes.".toList
  else .ok (sec.hashpw password salt)

def conflict (email : Text) : AuthError :=
  ⟨409, "Email '".toList ++ email ++ "' is already registered.".toList⟩

def disallowed : AuthError :=
  ⟨422, "Registration is restricted to @".toList ++ cfg.allowedEmailDomain ++
    " email addresses.".toList⟩

/-- `POST /auth/register`. The role is not the caller's to choose. An insert that is refused is an
exception no handler takes. -/
def register {u : Unicode} {emailStr : Text → Bool} (t : Users) (payload : UserRegister u emailStr)
    (newId : Nat) (salt : Text) : Except AuthError User × Users :=
  if ¬ ('@' :: cfg.lower cfg.allowedEmailDomain) <:+ cfg.lower payload.email then
    (.error (disallowed cfg), t)
  else if (getByEmail cfg t payload.email).isSome then (.error (conflict payload.email), t)
  else match hashPassword sec payload.password salt with
    | .error message => (.error ⟨422, message⟩, t)
    | .ok hashed =>
      let user : User :=
        { userId := newId, email := cfg.lower payload.email, fullName := payload.fullName,
          hashedPassword := hashed, role := .user, isActive := true }
      match t.insert user with
      | none => (.error ⟨500, "Internal Server Error".toList⟩, t)
      | some t => (.ok user, t)

def authenticate (t : Users) (email password : Text) : Option User :=
  match getByEmail cfg t email with
  | none => none
  | some user =>
    if user.isActive && sec.checkpw password user.hashedPassword then some user else none

def createAccessToken (now : Nat) (user : User) : Text :=
  sec.encode ⟨user.userId, user.role, now + cfg.accessTokenExpireMinutes * 60⟩

/-- `POST /auth/login`. -/
def login (t : Users) (now : Nat) (username password : Text) : Except AuthError Text :=
  match authenticate cfg sec t username password with
  | none => .error ⟨401, "Invalid email or password.".toList⟩
  | some user => .ok (createAccessToken cfg sec now user)

def unauthorized : AuthError := ⟨401, "Could not validate credentials.".toList⟩

/-- The account a request is made by. -/
def getCurrentUser (t : Users) (now : Nat) (token : Option Text) : Except AuthError User :=
  match token.bind (sec.decode now) with
  | none => .error unauthorized
  | some claims =>
    match t.get claims.sub with
    | none => .error unauthorized
    | some user => if user.isActive then .ok user else .error unauthorized

def unconfigured : AuthError := ⟨404, "No demo login is configured.".toList⟩

/-- `GET /auth/demo-login`, to whoever asks. -/
def demoLogin (t : Users) : Except AuthError (Text × Text) :=
  match cfg.demoLogin with
  | none => .error unconfigured
  | some (email, password) =>
    if email.isEmpty || password.isEmpty then .error unconfigured
    else match t.byEmail (cfg.lower email) with
      | none => .ok (email, password)
      | some account =>
        if account.role = .admin then .error unconfigured else .ok (email, password)

end Auth

/-- What happens to the accounts: the requests, and the edits made to the table by hand. -/
inductive AccountEvent (u : Unicode) (emailStr : Text → Bool) where
  | register (payload : UserRegister u emailStr) (newId : Nat) (salt : Text)
  | login (now : Nat) (username password : Text)
  | readCurrentUser (now : Nat) (token : Option Text)
  | demoLogin
  | edit (id : Nat) (role : UserRole) (isActive : Bool)

namespace Auth

variable {u : Unicode} {emailStr : Text → Bool}

def step (cfg : AuthSettings) (sec : Security) (t : Users) : AccountEvent u emailStr → Users
  | .register payload newId salt => (register cfg sec t payload newId salt).2
  | .edit id role isActive => t.edit id role isActive
  | .login .. | .readCurrentUser .. | .demoLogin => t

def run (cfg : AuthSettings) (sec : Security) : Users → List (AccountEvent u emailStr) → Users
  | t, [] => t
  | t, e :: es => run cfg sec (step cfg sec t e) es

variable {cfg : AuthSettings} {sec : Security} {t t' : Users} {e : AccountEvent u emailStr}
  {es : List (AccountEvent u emailStr)} {r r' : User}

theorem get_eq_some {id : Nat} : t.get id = some r ↔ r ∈ t.rows ∧ r.userId = id :=
  Table.lookup_eq_some_iff t.ids

theorem byEmail_eq_some {email : Text} : t.byEmail email = some r ↔ r ∈ t.rows ∧ r.email = email :=
  Table.lookup_eq_some_iff t.emails

/-- What no step changes of an account. -/
structure Same (r r' : User) : Prop where
  userId : r'.userId = r.userId
  email : r'.email = r.email
  hashedPassword : r'.hashedPassword = r.hashedPassword

theorem Same.trans {r'' : User} (h : Same r r') (h' : Same r' r'') : Same r r'' :=
  ⟨h'.userId.trans h.userId, h'.email.trans h.email, h'.hashedPassword.trans h.hashedPassword⟩

/-- The edits by hand that give an account a role, or switch it on or off. -/
def Edited (es : List (AccountEvent u emailStr)) (id : Nat) (p : UserRole → Bool → Prop) : Prop :=
  ∃ role isActive, AccountEvent.edit id role isActive ∈ es ∧ p role isActive

theorem register_rows (cfg : AuthSettings) (sec : Security) (t : Users)
    (payload : UserRegister u emailStr) (newId : Nat) (salt : Text) :
    (∃ error, register cfg sec t payload newId salt = (.error error, t)) ∨
    ∃ user t', register cfg sec t payload newId salt = (.ok user, t') ∧
      t'.rows = t.rows ++ [user] ∧ user.userId = newId ∧ user.email = cfg.lower payload.email ∧
      user.role = .user ∧ user.isActive = true ∧
      ('@' :: cfg.lower cfg.allowedEmailDomain) <:+ user.email ∧
      bytes payload.password ≤ maxPasswordBytes ∧
      user.hashedPassword = sec.hashpw payload.password salt := by
  by_cases hdomain : ('@' :: cfg.lower cfg.allowedEmailDomain) <:+ cfg.lower payload.email
  · by_cases htaken : (getByEmail cfg t payload.email).isSome = true
    · simp [register, hdomain, htaken]
    · by_cases hlong : maxPasswordBytes < bytes payload.password
      · simp [register, hdomain, htaken, hashPassword, hlong]
      · simp only [register, hdomain, htaken, hashPassword, hlong, not_true_eq_false, if_false,
          Bool.false_eq_true, Users.insert]
        split
        · exact .inl ⟨_, rfl⟩
        · rename_i t' hsome
          right
          split at hsome
          · cases hsome
            exact ⟨_, _, rfl, rfl, rfl, rfl, rfl, rfl, hdomain, not_lt.mp hlong, rfl⟩
          · cases hsome
  · simp [register, hdomain]

theorem step_kept (cfg : AuthSettings) (sec : Security) (e : AccountEvent u emailStr)
    (hr : r ∈ t.rows) : ∃ r' ∈ (step cfg sec t e).rows, Same r r' ∧
    ((r'.role = r.role ∧ r'.isActive = r.isActive) ∨
      e = .edit r.userId r'.role r'.isActive) := by
  cases e with
  | register payload newId salt =>
    have hkept : r ∈ (register cfg sec t payload newId salt).2.rows := by
      rcases register_rows cfg sec t payload newId salt with ⟨error, h⟩ | ⟨user, t', h, hrows, -⟩
      · rwa [h]
      · simp [h, hrows, hr]
    exact ⟨r, hkept, ⟨rfl, rfl, rfl⟩, .inl ⟨rfl, rfl⟩⟩
  | edit id role isActive =>
    by_cases hid : r.userId = id
    · refine ⟨{ r with role, isActive }, ?_, ⟨rfl, rfl, rfl⟩, .inr (by rw [hid])⟩
      exact List.mem_map.mpr ⟨r, hr, by simp [hid]⟩
    · refine ⟨r, List.mem_map.mpr ⟨r, hr, by simp [hid]⟩, ⟨rfl, rfl, rfl⟩, .inl ⟨rfl, rfl⟩⟩
  | login | readCurrentUser | demoLogin => exact ⟨r, hr, ⟨rfl, rfl, rfl⟩, .inl ⟨rfl, rfl⟩⟩

theorem step_came (hr : r' ∈ (step cfg sec t e).rows) :
    (∃ r ∈ t.rows, Same r r' ∧ (r'.role = r.role ∨ e = .edit r.userId r'.role r'.isActive)) ∨
    (r'.role = .user ∧ (∃ email, r'.email = cfg.lower email) ∧
      ('@' :: cfg.lower cfg.allowedEmailDomain) <:+ r'.email) := by
  cases e with
  | register payload newId salt =>
    rcases register_rows cfg sec t payload newId salt with
      ⟨error, h⟩ | ⟨user, t', h, hrows, -, hemail, hrole, -, hdomain, -⟩
    · rw [step, h] at hr
      exact .inl ⟨r', hr, ⟨rfl, rfl, rfl⟩, .inl rfl⟩
    · simp only [step, h, hrows, List.mem_append, List.mem_singleton] at hr
      rcases hr with hr | rfl
      · exact .inl ⟨r', hr, ⟨rfl, rfl, rfl⟩, .inl rfl⟩
      · exact .inr ⟨hrole, ⟨_, hemail⟩, hdomain⟩
  | edit id role isActive =>
    left
    obtain ⟨r, hrow, he⟩ := List.mem_map.mp hr
    split at he
    · rename_i hid
      subst he
      exact ⟨r, hrow, ⟨rfl, rfl, rfl⟩, .inr (by rw [← of_decide_eq_true hid])⟩
    · subst he
      exact ⟨r, hrow, ⟨rfl, rfl, rfl⟩, .inl rfl⟩
  | login | readCurrentUser | demoLogin => exact .inl ⟨r', hr, ⟨rfl, rfl, rfl⟩, .inl rfl⟩

theorem Edited.tail {id : Nat} {p : UserRole → Bool → Prop} (h : Edited es id p) :
    Edited (e :: es) id p := by
  obtain ⟨role, isActive, hmem, hp⟩ := h
  exact ⟨role, isActive, List.mem_cons_of_mem e hmem, hp⟩

theorem Edited.head {id : Nat} {role : UserRole} {isActive : Bool} {p : UserRole → Bool → Prop}
    (he : e = .edit id role isActive) (hp : p role isActive) : Edited (e :: es) id p :=
  ⟨role, isActive, he ▸ List.mem_cons_self, hp⟩

/-- Accounts stay, and only an edit by hand changes what one may do. -/
theorem run_kept (cfg : AuthSettings) (sec : Security) (es : List (AccountEvent u emailStr))
    (hr : r ∈ t.rows) : ∃ r' ∈ (run cfg sec t es).rows, Same r r' ∧
    (r'.role = r.role ∨ Edited es r.userId fun role _ => role = r'.role) ∧
    (r'.isActive = r.isActive ∨ Edited es r.userId fun _ isActive => isActive = r'.isActive) := by
  induction es generalizing t r with
  | nil => exact ⟨r, hr, ⟨rfl, rfl, rfl⟩, .inl rfl, .inl rfl⟩
  | cons e es ih =>
    obtain ⟨m, hm, hsame, hstep⟩ := step_kept cfg sec e hr
    obtain ⟨r', hr', hsame', hrole, hactive⟩ := ih hm
    refine ⟨r', hr', hsame.trans hsame', ?_, ?_⟩
    · rcases hrole with hrole | hrole
      · rcases hstep with ⟨hsrole, -⟩ | he
        · exact .inl (hrole.trans hsrole)
        · exact .inr (.head he hrole.symm)
      · rw [hsame.userId] at hrole
        exact .inr hrole.tail
    · rcases hactive with hactive | hactive
      · rcases hstep with ⟨-, hsactive⟩ | he
        · exact .inl (hactive.trans hsactive)
        · exact .inr (.head he hactive.symm)
      · rw [hsame.userId] at hactive
        exact .inr hactive.tail

/-- An account of a run was there before, or was registered, in the domain and as a plain user;
whichever it was, only an edit by hand raised it. -/
theorem run_came (hr : r' ∈ (run cfg sec t es).rows) :
    (∃ r ∈ t.rows, Same r r' ∧
      (r'.role = r.role ∨ Edited es r'.userId fun role _ => role = r'.role)) ∨
    ((r'.role = .user ∨ Edited es r'.userId fun role _ => role = r'.role) ∧
      (∃ email, r'.email = cfg.lower email) ∧
      ('@' :: cfg.lower cfg.allowedEmailDomain) <:+ r'.email) := by
  induction es generalizing t with
  | nil => exact .inl ⟨r', hr, ⟨rfl, rfl, rfl⟩, .inl rfl⟩
  | cons e es ih =>
    rcases ih hr with ⟨m, hm, hsame, hrole⟩ | ⟨hrole, hemail, hdomain⟩
    · rcases step_came hm with ⟨r, hrow, hsame', hrole'⟩ | ⟨huser, hemail, hdomain⟩
      · refine .inl ⟨r, hrow, hsame'.trans hsame, ?_⟩
        rcases hrole with hrole | hrole
        · rcases hrole' with hrole' | he
          · exact .inl (hrole.trans hrole')
          · rw [hsame.userId, hsame'.userId]
            exact .inr (.head he hrole.symm)
        · exact .inr hrole.tail
      · rw [← hsame.email] at hdomain hemail
        refine .inr ⟨?_, hemail, hdomain⟩
        rcases hrole with hrole | hrole
        · exact .inl (hrole.trans huser)
        · exact .inr hrole.tail
    · refine .inr ⟨?_, hemail, hdomain⟩
      rcases hrole with hrole | hrole
      · exact .inl hrole
      · exact .inr hrole.tail

/-- Nobody becomes an administrator by what they send. -/
theorem admin_by_edit (hr : r' ∈ (run cfg sec t es).rows) :
    (r'.role = .admin → (∃ r ∈ t.rows, Same r r' ∧ r.role = .admin) ∨
      Edited es r'.userId fun role _ => role = .admin) ∧
    ((∃ r ∈ t.rows, Same r r') ∨ (∃ email, r'.email = cfg.lower email) ∧
      ('@' :: cfg.lower cfg.allowedEmailDomain) <:+ r'.email) := by
  rcases run_came hr with ⟨r, hrow, hsame, hrole⟩ | ⟨hrole, hemail⟩
  · refine ⟨fun hadmin => ?_, .inl ⟨r, hrow, hsame⟩⟩
    rw [hadmin] at hrole
    rcases hrole with hrole | hrole
    · exact .inl ⟨r, hrow, hsame, hrole.symm⟩
    · exact .inr hrole
  · refine ⟨fun hadmin => ?_, .inr hemail⟩
    rw [hadmin] at hrole
    rcases hrole with hrole | hrole
    · cases hrole
    · exact .inr hrole

/-- What the page without a login publishes opens no administrator's account, then or later,
unless the account is made one afterwards. -/
theorem demo_never_admin {email password : Text}
    (hdemo : demoLogin cfg t = .ok (email, password))
    (hr : authenticate cfg sec (run cfg sec t es) email password = some r)
    (hadmin : r.role = .admin) : Edited es r.userId fun role _ => role = .admin := by
  have hrow : r ∈ (run cfg sec t es).rows ∧ r.email = cfg.lower email := by
    simp only [authenticate, getByEmail] at hr
    split at hr
    · cases hr
    · rename_i user huser
      split at hr
      · cases hr
        exact byEmail_eq_some.mp huser
      · cases hr
  rcases (admin_by_edit hrow.1).1 hadmin with ⟨r₀, hr₀, hsame, hadmin₀⟩ | hedit
  · have hfound : t.byEmail (cfg.lower email) = some r₀ :=
      byEmail_eq_some.mpr ⟨hr₀, hsame.email.symm.trans hrow.2⟩
    simp only [demoLogin] at hdemo
    split at hdemo
    · cases hdemo
    · split at hdemo
      · cases hdemo
      · split at hdemo
        · rename_i hnone
          cases hdemo
          rw [hfound] at hnone
          cases hnone
        · rename_i account hsome
          split at hdemo
          · cases hdemo
          · rename_i hplain
            cases hdemo
            rw [hfound] at hsome
            cases hsome
            exact absurd hadmin₀ hplain
  · exact hedit

theorem getCurrentUser_created (hsec : sec.Lawful) (now later : Nat)
    (hr : t.get r.userId = some r') : getCurrentUser sec t later
      (some (createAccessToken cfg sec now r)) =
        if later ≤ now + cfg.accessTokenExpireMinutes * 60 ∧ r'.isActive = true then .ok r'
        else .error unauthorized := by
  have hdecode :=
    hsec.decode_encode later ⟨r.userId, r.role, now + cfg.accessTokenExpireMinutes * 60⟩
  by_cases hexp : later ≤ now + cfg.accessTokenExpireMinutes * 60
  · rw [if_neg (not_lt.mpr hexp)] at hdecode
    simp [getCurrentUser, createAccessToken, hdecode, hr, hexp, unauthorized]
  · rw [if_pos (not_le.mp hexp)] at hdecode
    simp [getCurrentUser, createAccessToken, hdecode, hexp, unauthorized]

/-- A token stands for the account as it is when the token is used, not as it was at the login,
and for nothing once it has expired or the account is switched off. -/
theorem token_follows_account (hsec : sec.Lawful) {now : Nat} {username password token : Text}
    (hlogin : login cfg sec t now username password = .ok token) :
    ∃ r, t.byEmail (cfg.lower username) = some r ∧
      ∀ (es : List (AccountEvent u emailStr)) (later : Nat),
        ∃ r', (run cfg sec t es).get r.userId = some r' ∧ Same r r' ∧
          getCurrentUser sec (run cfg sec t es) later (some token) =
            if later ≤ now + cfg.accessTokenExpireMinutes * 60 ∧ r'.isActive = true then .ok r'
            else .error unauthorized := by
  simp only [login, authenticate, getByEmail] at hlogin
  cases hr : t.byEmail (cfg.lower username) with
  | none => simp [hr] at hlogin
  | some r =>
    rw [hr] at hlogin
    refine ⟨r, rfl, fun es later => ?_⟩
    obtain ⟨r', hr', hsame, -⟩ :=
      run_kept cfg sec es (byEmail_eq_some.mp hr).1
    have hget : (run cfg sec t es).get r.userId = some r' := get_eq_some.mpr ⟨hr', hsame.userId⟩
    have htoken : token = createAccessToken cfg sec now r := by
      cases hok : r.isActive && sec.checkpw password r.hashedPassword with
      | true => simpa [hok, eq_comm] using hlogin
      | false => simp [hok] at hlogin
    exact ⟨r', hget, hsame, htoken ▸ getCurrentUser_created hsec now later hget⟩

/-- Whoever registered signs in with the same password, however the address is written, in any
later state in which nobody has switched the account off. -/
theorem registered_signs_in (hsec : sec.Lawful) {payload : UserRegister u emailStr} {newId : Nat}
    {salt username : Text} {user : User}
    (hregister : register cfg sec t payload newId salt = (.ok user, t'))
    (hon : ¬ Edited es newId fun _ isActive => isActive = false)
    (husername : cfg.lower username = cfg.lower payload.email) :
    ∃ r, authenticate cfg sec (run cfg sec t' es) username payload.password = some r ∧
      Same user r ∧ ∀ now later, later ≤ now + cfg.accessTokenExpireMinutes * 60 →
        ∃ token, login cfg sec (run cfg sec t' es) now username payload.password = .ok token ∧
          getCurrentUser sec (run cfg sec t' es) later (some token) = .ok r := by
  obtain ⟨hrow, hid, hemail, hactive, hbytes, hhash⟩ : user ∈ t'.rows ∧ user.userId = newId ∧
      user.email = cfg.lower payload.email ∧ user.isActive = true ∧
      bytes payload.password ≤ maxPasswordBytes ∧
      user.hashedPassword = sec.hashpw payload.password salt := by
    rcases register_rows cfg sec t payload newId salt with
      ⟨error, h⟩ | ⟨user', u', h, hrows, hid, hemail, -, hactive, -, hbytes, hhash⟩
    · rw [hregister] at h
      cases h
    · rw [hregister] at h
      cases h
      exact ⟨by simp [hrows], hid, hemail, hactive, hbytes, hhash⟩
  obtain ⟨r, hr, hsame, -, hkept⟩ := run_kept cfg sec es hrow
  have hfound : (run cfg sec t' es).byEmail (cfg.lower username) = some r :=
    byEmail_eq_some.mpr ⟨hr, (hsame.email.trans hemail).trans husername.symm⟩
  have hgot : (run cfg sec t' es).get r.userId = some r := get_eq_some.mpr ⟨hr, rfl⟩
  have hon' : r.isActive = true := by
    rcases hkept with hkept | hedit
    · exact hkept.trans hactive
    · by_contra hoff
      rw [Bool.eq_false_iff.mpr hoff, hid] at hedit
      exact hon hedit
  have hcheck : sec.checkpw payload.password r.hashedPassword = true := by
    rw [hsame.hashedPassword, hhash]
    exact hsec.check_hash _ _ hbytes
  have hauth : authenticate cfg sec (run cfg sec t' es) username payload.password = some r := by
    simp [authenticate, getByEmail, hfound, hon', hcheck]
  refine ⟨r, hauth, hsame, fun now later hlater => ?_⟩
  refine ⟨createAccessToken cfg sec now r, by simp [login, hauth], ?_⟩
  rw [getCurrentUser_created hsec now later hgot, if_pos ⟨hlater, hon'⟩]

section Example

/-- A hash that is the password, and a token that spells its claims out. -/
def plainSecurity : Security where
  hashpw password _ := password
  checkpw password hashed := password = hashed
  encode claims :=
    (if claims.role = .admin then 'A' else 'U') ::
      (List.replicate claims.sub 's' ++ List.replicate claims.exp 'e')
  decode now token :=
    match token with
    | [] => none
    | role :: rest =>
      if rest.count 'e' < now then none
      else some ⟨rest.count 's', if role = 'A' then .admin else .user, rest.count 'e'⟩

theorem plainSecurity_lawful : plainSecurity.Lawful where
  check_hash password salt _ := by simp [plainSecurity]
  decode_encode now claims := by
    obtain ⟨sub, role, exp⟩ := claims
    cases role <;> simp [plainSecurity, List.count_append, List.count_replicate]

def openSettings : AuthSettings where
  lower := List.map Char.toLower
  allowedEmailDomain := "Office.org".toList
  accessTokenExpireMinutes := 60
  demoLogin := some ("demo@office.org".toList, "Demo#2024".toList)

def demoAccount : User where
  userId := 1
  email := "demo@office.org".toList
  fullName := "Demo".toList
  hashedPassword := "Demo#2024".toList
  role := .user
  isActive := true

def oneUser : Users := ⟨[demoAccount], List.nodup_singleton _, List.nodup_singleton _⟩

theorem asha_name : 1 ≤ "Asha".toList.length ∧ "Asha".toList.length ≤ 255 := by decide

theorem asha_password : 8 ≤ "Monsoon#7".toList.length ∧ "Monsoon#7".toList.length ≤ 128 := by decide

theorem asha_complex : missing ascii "Monsoon#7".toList = [] := by decide

def asha : UserRegister ascii fun _ => true where
  email := "Asha@office.org".toList
  fullName := "Asha".toList
  password := "Monsoon#7".toList
  email_ok := rfl
  name_ok := asha_name
  password_ok := asha_password
  complex := asha_complex

def promotion : List (AccountEvent ascii fun _ => true) := [.edit 1 .admin true]

theorem promoted_by_hand :
    (∃ r ∈ oneUser.rows, Same r { demoAccount with role := .admin } ∧ r.role = .admin) ∨
      Edited promotion 1 fun role _ => role = .admin := by
  have hr : { demoAccount with role := .admin } ∈
      (run openSettings plainSecurity oneUser promotion).rows := by decide
  exact (admin_by_edit hr).1 rfl

theorem demo_stays_plain : Edited promotion 1 fun role _ => role = .admin := by
  have hdemo : demoLogin openSettings oneUser =
      .ok ("demo@office.org".toList, "Demo#2024".toList) := rfl
  have hr : authenticate openSettings plainSecurity
      (run openSettings plainSecurity oneUser promotion) "demo@office.org".toList
      "Demo#2024".toList = some { demoAccount with role := .admin } := rfl
  exact demo_never_admin hdemo hr rfl

def ashaAccount : User where
  userId := 2
  email := "asha@office.org".toList
  fullName := "Asha".toList
  hashedPassword := "Monsoon#7".toList
  role := .user
  isActive := true

theorem two_ids : (([demoAccount] ++ [ashaAccount]).map User.userId).Nodup := by decide

theorem two_emails : (([demoAccount] ++ [ashaAccount]).map User.email).Nodup := by decide

def twoUsers : Users := ⟨[demoAccount] ++ [ashaAccount], two_ids, two_emails⟩

theorem asha_signs_in : ∃ r, authenticate openSettings plainSecurity
    (run openSettings plainSecurity twoUsers promotion) "ASHA@office.org".toList
      "Monsoon#7".toList = some r ∧ Same ashaAccount r := by
  have hregister : register openSettings plainSecurity oneUser asha 2 [] =
      (.ok ashaAccount, twoUsers) := rfl
  have hon : ¬ Edited promotion 2 fun _ isActive => isActive = false := by
    simp [Edited, promotion]
  have husername : openSettings.lower "ASHA@office.org".toList = openSettings.lower asha.email := by
    decide
  obtain ⟨r, hr, hsame, -⟩ := registered_signs_in plainSecurity_lawful hregister hon husername
  exact ⟨r, hr, hsame⟩

theorem demo_token_follows : ∃ r, oneUser.byEmail "demo@office.org".toList = some r ∧
    ∀ later, ∃ r', (run openSettings plainSecurity oneUser promotion).get r.userId = some r' ∧
      getCurrentUser plainSecurity (run openSettings plainSecurity oneUser promotion) later
        (some (createAccessToken openSettings plainSecurity 5 demoAccount)) =
          if later ≤ 5 + 60 * 60 ∧ r'.isActive = true then .ok r' else .error unauthorized := by
  have hlogin : login openSettings plainSecurity oneUser 5 "demo@office.org".toList
      "Demo#2024".toList = .ok (createAccessToken openSettings plainSecurity 5 demoAccount) := rfl
  obtain ⟨r, hr, hafter⟩ := token_follows_account plainSecurity_lawful hlogin
  refine ⟨r, hr, fun later => ?_⟩
  obtain ⟨r', hget, -, htoken⟩ := hafter promotion later
  exact ⟨r', hget, htoken⟩

end Example

end Auth

end KnowledgeBase
