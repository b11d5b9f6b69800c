import ProxmoxBackup.JobsFile
import Mathlib.Data.List.ReduceOption

/-! Importing settings (gui/settings_export.go): a bundle merged into the current configuration
and job list, which are written one after the other. -/
namespace ProxmoxBackup.SettingsImport

open JobsFile (Job File Host)

abbrev Bytes := List UInt8

/-- A server's entry; `other` holds the fields no rule here looks at. -/
structure PBSServer (Value : Type) where
  Secret : String
  Password : String
  EncryptionKeyPassphrase : String
  other : Value
  deriving DecidableEq

structure ShareLogin where
  Server : Bytes
  Username : Bytes
  Password : Bytes
  deriving DecidableEq

/-- What a Backup Set has besides the fields of JobsFile.Job. -/
structure Own (Value : Type) where
  backupID : Bytes
  skipPartitions : Value
  other : Value
  deriving DecidableEq

structure Mail where
  SMTPHost : String
  SMTPPort : String
  SMTPUsername : String
  SMTPPassword : String
  deriving DecidableEq

/-- The configuration in memory; its maps are functions of their keys. -/
structure Config (Value : Type) where
  PBSServers : String → Option (PBSServer Value)
  DefaultPBSID : String
  Theme : Option Value
  mail : Mail
  ShareLogins : Bytes → Option ShareLogin
  other : Value

/-- The configuration section of a file, as encoding/json reads it. -/
structure Section_ (Value : Type) where
  PBSServers : List (String × Option (PBSServer Value))
  DefaultPBSID : String
  Theme : Option Value
  mail : Mail
  ShareLogins : List (Option ShareLogin)
  distinct : (PBSServers.map Prod.fst).Nodup

structure Read (Value : Type) where
  Config : Option (Section_ Value)
  ScheduledJobs : List (Job (Own Value))
  SourceHost : Bytes

/-- A bundle that parsed: it has a configuration and no empty server. The maps are lists in the
order the loops over them take. -/
structure SettingsBundle (Value : Type) where
  PBSServers : List (String × PBSServer Value)
  DefaultPBSID : String
  Theme : Option Value
  mail : Mail
  ShareLogins : List (Option ShareLogin)
  ScheduledJobs : List (Job (Own Value))
  SourceHost : Bytes
  distinct : (PBSServers.map Prod.fst).Nodup

variable {Value : Type}

theorem named_sublist (servers : List (String × Option (PBSServer Value))) :
    ((servers.filterMap fun e => e.2.map (e.1, ·)).map Prod.fst).Sublist (servers.map Prod.fst) := by
  induction servers with
  | nil => exact .slnil
  | cons first rest ih =>
      obtain ⟨id, server⟩ := first
      cases server with
      | none => exact ih.cons id
      | some server => exact ih.cons_cons id

/-- parseSettingsBundle; `decoded` is json.Unmarshal's result. -/
def parseSettingsBundle (decoded : Except String (Read Value)) :
    Except String (SettingsBundle Value) :=
  match decoded with
  | .error text => .error ("not a valid settings export: " ++ text)
  | .ok read =>
      match read.Config with
      | none => .error "settings file has no configuration section"
      | some c =>
          match c.PBSServers.find? (·.2.isNone) with
          | some (id, _) => .error ("settings file: PBS server \"" ++ id ++ "\" is empty")
          | none => .ok {
              PBSServers := c.PBSServers.filterMap fun e => e.2.map (e.1, ·)
              DefaultPBSID := c.DefaultPBSID
              Theme := c.Theme
              mail := c.mail
              ShareLogins := c.ShareLogins
              ScheduledJobs := read.ScheduledJobs
              SourceHost := read.SourceHost
              distinct := (named_sublist c.PBSServers).nodup c.distinct }

/-- A parsed bundle has every server of the file. -/
theorem parsed_servers {read : Read Value} {bundle : SettingsBundle Value}
    (parsed : parseSettingsBundle (.ok read) = .ok bundle) :
    ∃ c, read.Config = some c ∧
      c.PBSServers = bundle.PBSServers.map fun e => (e.1, some e.2) := by
  unfold parseSettingsBundle at parsed
  dsimp only at parsed
  split at parsed
  · cases parsed
  · rename_i c found
    split at parsed
    · cases parsed
    · rename_i full
      cases parsed
      refine ⟨c, found, ?_⟩
      have given := List.find?_eq_none.mp full
      rw [List.map_filterMap]
      symm
      generalize c.PBSServers = servers at given
      induction servers with
      | nil => rfl
      | cons first rest ih =>
          obtain ⟨id, server⟩ := first
          have later := ih fun e listed => given e (List.mem_cons_of_mem _ listed)
          cases server with
          | none => exact absurd rfl (given (id, none) List.mem_cons_self)
          | some server => exact congrArg ((id, some server) :: ·) later

/-- The computer: strings.ToLower, TrimSpace and EqualFold, its name, what the jobs file's
reading and schedules take of it, the clock, an empty SkipPartitions, and the text a
configuration is saved as, once its secrets are opened. -/
structure Program (Value Text : Type) where
  lower : Bytes → Bytes
  trim : Bytes → Bytes
  equalFold : Bytes → Bytes → Bool
  thisHost : Bytes
  host : Host
  now : Int
  noPartitions : Value
  saved : Config Value → Text

structure App (Value Text : Type) where
  config : Config Value
  configFile : Text
  jobsFile : File (Own Value)

/-- What the steps that can fail fail with: saving the configuration, reading the jobs file,
and finding its path, building its text and writing it. -/
structure Faults where
  save : Option String := none
  read : Option String := none
  path : Option String := none
  marshal : Option String := none
  write : Option String := none

section Model

variable {Text : Type} (p : Program Value Text)

/-- A server of the bundle with the secrets it keeps of the entry it replaces. -/
def kept : Option (PBSServer Value) → PBSServer Value → PBSServer Value
  | none, srv => srv
  | some existing, srv =>
      let srv :=
        if srv.Secret = "" ∧ srv.Password = "" then
          { srv with Secret := existing.Secret, Password := existing.Password }
        else srv
      if srv.EncryptionKeyPassphrase = "" then
        { srv with EncryptionKeyPassphrase := existing.EncryptionKeyPassphrase }
      else srv

def putServer (servers : String → Option (PBSServer Value)) (e : String × PBSServer Value) :
    String → Option (PBSServer Value) :=
  Function.update servers e.1 (some (kept (servers e.1) e.2))

def mergeMail (given current : Mail) : Mail :=
  if given.SMTPHost = "" then current
  else
    { SMTPHost := given.SMTPHost
      SMTPPort := given.SMTPPort
      SMTPUsername := given.SMTPUsername
      SMTPPassword :=
        if given.SMTPPassword = "" then current.SMTPPassword else given.SMTPPassword }

def Program.shareKey (server : Bytes) : Bytes := p.lower (p.trim server)

def Program.usable (l : ShareLogin) : Bool := !(p.trim l.Server).isEmpty && !l.Username.isEmpty

def passwordOf (old : Option ShareLogin) : Bytes := (old.map (·.Password)).getD []

/-- A login of the bundle over the one stored for its server; one without a password is left
out. -/
def mergeLogin (old : Option ShareLogin) (l : ShareLogin) : Option ShareLogin :=
  let password := if l.Password = [] then passwordOf old else l.Password
  if password = [] then old
  else some { Server := p.trim l.Server, Username := l.Username, Password := password }

def putLogin (logins : Bytes → Option ShareLogin) : Option ShareLogin → Bytes → Option ShareLogin
  | none => logins
  | some l =>
      if p.usable l then
        let key := p.shareKey l.Server
        Function.update logins key (mergeLogin p (logins key) l)
      else logins

/-- The configuration with the bundle in it, before it is saved. -/
def mergeConfig (bundle : SettingsBundle Value) (forDeployment : Bool) (config : Config Value) :
    Config Value :=
  { config with
    PBSServers := bundle.PBSServers.foldl putServer config.PBSServers
    DefaultPBSID :=
      if bundle.DefaultPBSID ≠ "" ∧ (!forDeployment ∨ config.DefaultPBSID = "") then
        bundle.DefaultPBSID
      else config.DefaultPBSID
    Theme := bundle.Theme.or config.Theme
    mail := mergeMail bundle.mail config.mail
    ShareLogins := bundle.ShareLogins.foldl (putLogin p) config.ShareLogins }

/-- The runs of other bytes than a-z and 0-9 as one dash each. -/
def slug : Bool → Bytes → Bytes
  | _, [] => []
  | gap, b :: rest =>
      if (97 ≤ b ∧ b ≤ 122) ∨ (48 ≤ b ∧ b ≤ 57) then b :: slug false rest
      else if gap then slug true rest
      else 45 :: slug true rest

def trimDashesRight (name : Bytes) : Bytes := (name.reverse.dropWhile (· = 45)).reverse

def hostSlug (name : Bytes) : Bytes :=
  trimDashesRight ((slug false (p.lower name)).dropWhile (· = 45))

def deployedBackupID (id sourceHost : Bytes) : Bytes :=
  if sourceHost = [] ∨ id = [] then id
  else if p.equalFold id sourceHost then []
  else
    let src := hostSlug p sourceHost
    if src = [] ∨ !(src ++ [45]).isPrefixOf (p.lower id) then id
    else
      let this := hostSlug p p.thisHost
      let out := (if this = [] then [104, 111, 115, 116] else this) ++ id.drop src.length
      if out.length > 60 then trimDashesRight (out.take 60) else out

/-- A set of the bundle as it comes to this computer. -/
def arriving (bundle : SettingsBundle Value) (forDeployment : Bool) (job : Job (Own Value)) :
    Job (Own Value) :=
  let job :=
    if forDeployment then
      { job with
        settings := { job.settings with
          backupID := deployedBackupID p job.settings.backupID bundle.SourceHost }
        lastRun := none
        nextRun := none
        metadataRunsSinceFullRead := 0 }
    else job
  let job :=
    if forDeployment || !p.equalFold bundle.SourceHost p.thisHost then
      { job with
        diskIDs := []
        settings := { job.settings with skipPartitions := p.noPartitions } }
    else job
  JobsFile.setNextRun p.host p.now (JobsFile.normalizeJob job)

def putIndex (byID : String → Option Nat) (e : Job (Own Value) × Nat) : String → Option Nat :=
  Function.update byID e.1.id (some e.2)

/-- The index of the last job of each ID. -/
def indexByID (jobs : List (Job (Own Value))) : String → Option Nat :=
  jobs.zipIdx.foldl putIndex fun _ => none

/-- The arriving set in the place of the one it replaces. -/
def replacing (forDeployment : Bool) (job existing : Job (Own Value)) : Job (Own Value) :=
  if forDeployment then
    { job with
      enabled := existing.enabled
      lastRun := existing.lastRun
      metadataRunsSinceFullRead := existing.metadataRunsSinceFullRead }
  else { job with enabled := existing.enabled }

def putJob (forDeployment : Bool) (byID : String → Option Nat) (jobs : List (Job (Own Value)))
    (job : Job (Own Value)) : List (Job (Own Value)) :=
  match byID job.id with
  | some i => jobs.modify i (replacing forDeployment job)
  | none => jobs ++ [job]

def mergeJobs (bundle : SettingsBundle Value) (forDeployment : Bool)
    (existing : List (Job (Own Value))) : List (Job (Own Value)) :=
  (bundle.ScheduledJobs.map (arriving p bundle forDeployment)).foldl
    (putJob forDeployment (indexByID existing)) existing

structure Result where
  serversImported : Nat
  jobsImported : Nat
  err : Option String
  deriving DecidableEq

/-- The second half: the job list is read, merged and written. -/
def importJobs (bundle : SettingsBundle Value) (forDeployment : Bool) (faults : Faults)
    (app : App Value Text) : App Value Text × Result :=
  let servers := bundle.PBSServers.length
  match JobsFile.getScheduledJobs p.host faults.read app.jobsFile with
  | .error text => (app, ⟨0, 0, some ("failed to load existing jobs: " ++ text)⟩)
  | .ok existing =>
      match faults.path, faults.marshal with
      | some text, _ => (app, ⟨servers, 0, some ("failed to get jobs path: " ++ text)⟩)
      | none, some text => (app, ⟨servers, 0, some ("failed to marshal jobs: " ++ text)⟩)
      | none, none =>
          match JobsFile.atomicWriteFile faults.write (mergeJobs p bundle forDeployment existing)
            app.jobsFile with
          | (_, some text) => (app, ⟨servers, 0, some ("failed to write jobs file: " ++ text)⟩)
          | (file, none) =>
              ({ app with jobsFile := file }, ⟨servers, bundle.ScheduledJobs.length, none⟩)

def mergeSettingsBundle (bundle : SettingsBundle Value) (forDeployment : Bool) (faults : Faults)
    (app : App Value Text) : App Value Text × Result :=
  let app := { app with config := mergeConfig p bundle forDeployment app.config }
  match faults.save with
  | some text => (app, ⟨0, 0, some ("failed to save imported config: " ++ text)⟩)
  | none => importJobs p bundle forDeployment faults { app with configFile := p.saved app.config }

end Model

/-! What the merge does to the servers, the logins and the mail account. -/

section Merged

variable {Text : Type} {p : Program Value Text}

theorem putServers_lookup (servers : List (String × PBSServer Value))
    (current : String → Option (PBSServer Value)) (distinct : (servers.map Prod.fst).Nodup) :
    (∀ id ∉ servers.map Prod.fst, servers.foldl putServer current id = current id) ∧
      ∀ e ∈ servers, servers.foldl putServer current e.1 = some (kept (current e.1) e.2) := by
  induction servers generalizing current with
  | nil => exact ⟨fun _ _ => rfl, nofun⟩
  | cons first rest ih =>
      obtain ⟨fresh, later⟩ := List.nodup_cons.mp distinct
      obtain ⟨others, own⟩ := ih (putServer current first) later
      have same (id : String) (other : id ≠ first.1) : putServer current first id = current id :=
        Function.update_of_ne other _ _
      constructor
      · intro id unnamed
        rw [List.map_cons, List.mem_cons, not_or] at unnamed
        rw [List.foldl_cons, others id unnamed.2, same id unnamed.1]
      · intro e listed
        rw [List.foldl_cons]
        obtain rfl | listed := List.mem_cons.mp listed
        · rw [others e.1 fresh]
          exact Function.update_self _ _ _
        · have other : e.1 ≠ first.1 := fun here => fresh (here ▸ List.mem_map_of_mem listed)
          rw [own e listed, same e.1 other]

/-- The logins of the bundle that count for a server, in their order. -/
def loginsFor (p : Program Value Text) (logins : List (Option ShareLogin)) (key : Bytes) :
    List ShareLogin :=
  logins.reduceOption.filter fun l => p.usable l && p.shareKey l.Server = key

theorem putLogins_lookup (logins : List (Option ShareLogin))
    (current : Bytes → Option ShareLogin) (key : Bytes) :
    logins.foldl (putLogin p) current key =
      (loginsFor p logins key).foldl (mergeLogin p) (current key) := by
  induction logins generalizing current with
  | nil => rfl
  | cons first rest ih =>
      rw [List.foldl_cons, ih]
      cases first with
      | none => rfl
      | some l =>
          unfold loginsFor
          rw [List.reduceOption_cons_of_some, List.filter_cons, putLogin]
          by_cases counts : p.usable l = true
          · rw [if_pos counts]
            by_cases own : p.shareKey l.Server = key
            · subst own
              rw [Function.update_self, if_pos (by simp [counts]), List.foldl_cons]
            · rw [Function.update_of_ne (Ne.symm own), if_neg (by simp [own])]
          · rw [if_neg counts, if_neg (by simp [counts])]

/-- The password a login ends with: the last one given, else the stored one. -/
def lastPassword (stored : Bytes) (logins : List ShareLogin) : Bytes :=
  logins.foldl (fun password l => if l.Password = [] then password else l.Password) stored

theorem lastPassword_cons (stored : Bytes) (first : ShareLogin) (rest : List ShareLogin) :
    lastPassword stored (first :: rest) =
      lastPassword (if first.Password = [] then stored else first.Password) rest := rfl

theorem lastPassword_kept (stored : Bytes) (logins : List ShareLogin)
    (empty : ∀ l ∈ logins, l.Password = []) : lastPassword stored logins = stored := by
  induction logins with
  | nil => rfl
  | cons first rest ih =>
      rw [lastPassword_cons, if_pos (empty first List.mem_cons_self)]
      exact ih fun l listed => empty l (List.mem_cons_of_mem _ listed)

theorem lastPassword_empty {stored : Bytes} {logins : List ShareLogin}
    (none_given : lastPassword stored logins = []) :
    stored = [] ∧ ∀ l ∈ logins, l.Password = [] := by
  induction logins generalizing stored with
  | nil => exact ⟨none_given, nofun⟩
  | cons first rest ih =>
      rw [lastPassword_cons] at none_given
      obtain ⟨next, others⟩ := ih none_given
      split at next
      · rename_i blank
        refine ⟨next, fun l listed => ?_⟩
        obtain rfl | listed := List.mem_cons.mp listed
        · exact blank
        · exact others l listed
      · contradiction

theorem mergeLogin_password (old : Option ShareLogin) (l : ShareLogin) :
    passwordOf (mergeLogin p old l) = if l.Password = [] then passwordOf old else l.Password := by
  unfold mergeLogin
  by_cases blank : l.Password = []
  · simp only [if_pos blank]
    split
    · rfl
    · rfl
  · simp only [if_neg blank]
    rfl

theorem mergeLogins_password (logins : List ShareLogin) (old : Option ShareLogin) :
    passwordOf (logins.foldl (mergeLogin p) old) = lastPassword (passwordOf old) logins := by
  induction logins generalizing old with
  | nil => rfl
  | cons first rest ih =>
      rw [List.foldl_cons, ih, mergeLogin_password]
      rfl

/-- Without any password the stored login stays; else the last entry is stored with it. -/
theorem mergeLogins_last (logins : List ShareLogin) (last : ShareLogin)
    (old : Option ShareLogin) :
    (logins ++ [last]).foldl (mergeLogin p) old =
      if lastPassword (passwordOf old) (logins ++ [last]) = [] then old
      else some {
        Server := p.trim last.Server
        Username := last.Username
        Password := lastPassword (passwordOf old) (logins ++ [last]) } := by
  induction logins generalizing old with
  | nil =>
      change mergeLogin p old last = _
      unfold mergeLogin
      rfl
  | cons first rest ih =>
      rw [List.cons_append, List.foldl_cons, ih, mergeLogin_password, lastPassword_cons]
      by_cases none_given :
          lastPassword (if first.Password = [] then passwordOf old else first.Password)
            (rest ++ [last]) = []
      · obtain ⟨stored, -⟩ := lastPassword_empty none_given
        rw [if_pos none_given, if_pos none_given]
        unfold mergeLogin
        rw [if_pos stored]
      · rw [if_neg none_given, if_neg none_given]

theorem mergeLogins_kept {logins : List ShareLogin} {old : ShareLogin}
    (empty : ∀ l ∈ logins, l.Password = []) :
    ∃ login, logins.foldl (mergeLogin p) (some old) = some login ∧
      login.Password = old.Password := by
  have password := mergeLogins_password (p := p) logins (some old)
  rw [lastPassword_kept _ _ empty] at password
  obtain rfl | ⟨rest, last, rfl⟩ := List.eq_nil_or_concat' logins
  · exact ⟨old, rfl, rfl⟩
  · rw [mergeLogins_last] at password ⊢
    split
    · exact ⟨old, rfl, rfl⟩
    · rename_i given
      rw [if_neg given] at password
      exact ⟨_, rfl, password⟩

/-! What the merge does to the job list. -/

def named (bundle : SettingsBundle Value) (job : Job (Own Value)) : Bool :=
  (bundle.ScheduledJobs.map (·.id)).contains job.id

def unnamed (bundle : SettingsBundle Value) (jobs : List (Job (Own Value))) :
    List (Job (Own Value)) :=
  jobs.filter fun job => !named bundle job

theorem arriving_id (bundle : SettingsBundle Value) (forDeployment : Bool)
    (job : Job (Own Value)) : (arriving p bundle forDeployment job).id = job.id := by
  unfold arriving
  cases forDeployment
  · cases p.equalFold bundle.SourceHost p.thisHost <;> rfl
  · rfl

theorem replacing_id (forDeployment : Bool) (job existing : Job (Own Value)) :
    (replacing forDeployment job existing).id = job.id := by
  cases forDeployment <;> rfl

theorem unnamed_modify (bundle : SettingsBundle Value) (change : Job (Own Value) → Job (Own Value))
    (jobs : List (Job (Own Value))) (i : Nat) (old : Job (Own Value)) (found : jobs[i]? = some old)
    (before : named bundle old = true) (after : named bundle (change old) = true) :
    unnamed bundle (jobs.modify i change) = unnamed bundle jobs := by
  unfold unnamed
  induction jobs generalizing i with
  | nil => cases found
  | cons first rest ih =>
      cases i with
      | zero =>
          cases found
          rw [List.modify_zero_cons, List.filter_cons_of_neg (by simp [after]),
            List.filter_cons_of_neg (by simp [before])]
      | succ i =>
          rw [List.modify_succ_cons, List.filter_cons, List.filter_cons, ih i found]

/-- Each index given is of a job with the ID. -/
def Indexes (byID : String → Option Nat) (jobs : List (Job (Own Value))) : Prop :=
  ∀ id i, byID id = some i → ∃ job, jobs[i]? = some job ∧ job.id = id

theorem indexByID_indexes (jobs : List (Job (Own Value))) : Indexes (indexByID jobs) jobs := by
  suffices h : ∀ (entries : List (Job (Own Value) × Nat)) (byID : String → Option Nat),
      (∀ e ∈ entries, jobs[e.2]? = some e.1) → Indexes byID jobs →
        Indexes (entries.foldl putIndex byID) jobs from
    h _ _ (fun _ listed => List.mem_zipIdx_iff_getElem?.mp listed) nofun
  intro entries
  induction entries with
  | nil => exact fun _ _ indexes => indexes
  | cons first rest ih =>
      intro byID listed indexes
      apply ih _ fun e later => listed e (List.mem_cons_of_mem _ later)
      intro id i given
      by_cases own : id = first.1.id
      · subst own
        rw [putIndex, Function.update_self, Option.some.injEq] at given
        subst given
        exact ⟨first.1, listed first List.mem_cons_self, rfl⟩
      · rw [putIndex, Function.update_of_ne own] at given
        exact indexes id i given

theorem putJob_keeps (bundle : SettingsBundle Value) (forDeployment : Bool)
    {byID : String → Option Nat} {jobs : List (Job (Own Value))} {job : Job (Own Value)}
    (listed : named bundle job = true) (indexes : Indexes byID jobs) :
    Indexes byID (putJob forDeployment byID jobs job) ∧
      unnamed bundle (putJob forDeployment byID jobs job) = unnamed bundle jobs := by
  unfold putJob
  split
  · rename_i i place
    obtain ⟨old, found, own⟩ := indexes job.id i place
    constructor
    · intro id k given
      obtain ⟨there, found_there, rfl⟩ := indexes id k given
      by_cases here : i = k
      · subst here
        obtain rfl := Option.some.inj (found.symm.trans found_there)
        refine ⟨replacing forDeployment job old, ?_, by rw [replacing_id, own]⟩
        rw [List.getElem?_modify_eq, found]
        rfl
      · refine ⟨there, ?_, rfl⟩
        rw [List.getElem?_modify_ne _ _ here, found_there]
    · apply unnamed_modify bundle _ _ _ old found
      · rw [named, own]
        exact listed
      · rw [named, replacing_id]
        exact listed
  · constructor
    · intro id k given
      obtain ⟨there, found, own⟩ := indexes id k given
      have inside := (List.getElem?_eq_some_iff.mp found).1
      exact ⟨there, by rw [List.getElem?_append_left inside, found], own⟩
    · unfold unnamed
      rw [List.filter_append, List.filter_cons_of_neg (by simp [listed]), List.filter_nil,
        List.append_nil]

theorem mergeJobs_unnamed (bundle : SettingsBundle Value) (forDeployment : Bool)
    (existing : List (Job (Own Value))) :
    unnamed bundle (mergeJobs p bundle forDeployment existing) = unnamed bundle existing := by
  suffices h : ∀ (arrived jobs : List (Job (Own Value))),
      (∀ job ∈ arrived, named bundle job = true) → Indexes (indexByID existing) jobs →
        unnamed bundle (arrived.foldl (putJob forDeployment (indexByID existing)) jobs) =
          unnamed bundle jobs by
    apply h _ _ _ (indexByID_indexes existing)
    intro job arrived
    obtain ⟨given, listed, rfl⟩ := List.mem_map.mp arrived
    rw [named, arriving_id]
    exact List.contains_iff_mem.mpr (List.mem_map_of_mem listed)
  intro arrived
  induction arrived with
  | nil => exact fun _ _ _ => rfl
  | cons first rest ih =>
      intro jobs listed indexes
      obtain ⟨still, same⟩ := putJob_keeps bundle forDeployment
        (listed first List.mem_cons_self) indexes
      rw [List.foldl_cons, ih _ (fun job later => listed job (List.mem_cons_of_mem _ later)) still,
        same]

/-! What an import promises, and when it keeps it. -/

/-- An import that succeeds: what the bundle does not name is as it was, and a secret it leaves
empty is the one stored. -/
structure Merges (p : Program Value Text) (bundle : SettingsBundle Value)
    (before after : App Value Text) : Prop where
  servers : ∀ id ∉ bundle.PBSServers.map Prod.fst,
    after.config.PBSServers id = before.config.PBSServers id
  logins : ∀ key, loginsFor p bundle.ShareLogins key = [] →
    after.config.ShareLogins key = before.config.ShareLogins key
  jobs : ∃ existing merged,
    JobsFile.getScheduledJobs p.host none before.jobsFile = .ok existing ∧
      after.jobsFile = .holds merged ∧ unnamed bundle merged = unnamed bundle existing
  other : after.config.other = before.config.other
  file : after.configFile = p.saved after.config
  server_secrets : ∀ e ∈ bundle.PBSServers, ∀ old, before.config.PBSServers e.1 = some old →
    ∃ new, after.config.PBSServers e.1 = some new ∧
      (e.2.Secret = "" → e.2.Password = "" →
        new.Secret = old.Secret ∧ new.Password = old.Password) ∧
      (e.2.EncryptionKeyPassphrase = "" →
        new.EncryptionKeyPassphrase = old.EncryptionKeyPassphrase)
  mail_password : bundle.mail.SMTPPassword = "" →
    after.config.mail.SMTPPassword = before.config.mail.SMTPPassword
  login_passwords : ∀ key old, before.config.ShareLogins key = some old →
    (∀ l ∈ loginsFor p bundle.ShareLogins key, l.Password = []) →
      ∃ new, after.config.ShareLogins key = some new ∧ new.Password = old.Password

/-- Merged, or nothing changed. -/
def Promised (p : Program Value Text) (bundle : SettingsBundle Value) (forDeployment : Bool)
    (faults : Faults) (app : App Value Text) : Prop :=
  if (mergeSettingsBundle p bundle forDeployment faults app).2.err.isSome then
    (mergeSettingsBundle p bundle forDeployment faults app).1 = app
  else Merges p bundle app (mergeSettingsBundle p bundle forDeployment faults app).1

/-- No step fails after the configuration is saved. -/
structure JobsGoThrough (p : Program Value Text) (faults : Faults) (app : App Value Text) :
    Prop where
  read : ∃ existing, JobsFile.getScheduledJobs p.host faults.read app.jobsFile = .ok existing
  path : faults.path = none
  marshal : faults.marshal = none
  write : faults.write = none

/-- The bundle has nothing for the configuration that is not in it. -/
structure Known (p : Program Value Text) (bundle : SettingsBundle Value) (forDeployment : Bool)
    (config : Config Value) : Prop where
  servers : ∀ e ∈ bundle.PBSServers, ∃ old, config.PBSServers e.1 = some old ∧
    e.2.other = old.other ∧
    ((e.2.Secret = "" ∧ e.2.Password = "") ∨
      (e.2.Secret = old.Secret ∧ e.2.Password = old.Password)) ∧
    (e.2.EncryptionKeyPassphrase = "" ∨
      e.2.EncryptionKeyPassphrase = old.EncryptionKeyPassphrase)
  default : bundle.DefaultPBSID = "" ∨ (forDeployment = true ∧ config.DefaultPBSID ≠ "") ∨
    bundle.DefaultPBSID = config.DefaultPBSID
  theme : bundle.Theme = none ∨ bundle.Theme = config.Theme
  mail : bundle.mail.SMTPHost = "" ∨
    (bundle.mail.SMTPHost = config.mail.SMTPHost ∧ bundle.mail.SMTPPort = config.mail.SMTPPort ∧
      bundle.mail.SMTPUsername = config.mail.SMTPUsername ∧
      (bundle.mail.SMTPPassword = "" ∨
        bundle.mail.SMTPPassword = config.mail.SMTPPassword))
  logins : ∀ key rest last, loginsFor p bundle.ShareLogins key = rest ++ [last] →
    lastPassword (passwordOf (config.ShareLogins key)) (rest ++ [last]) = [] ∨
      config.ShareLogins key = some {
        Server := p.trim last.Server
        Username := last.Username
        Password := lastPassword (passwordOf (config.ShareLogins key)) (rest ++ [last]) }

theorem kept_same (srv old : PBSServer Value) :
    kept (some old) srv = old ↔ srv.other = old.other ∧
      ((srv.Secret = "" ∧ srv.Password = "") ∨
        (srv.Secret = old.Secret ∧ srv.Password = old.Password)) ∧
      (srv.EncryptionKeyPassphrase = "" ∨
        srv.EncryptionKeyPassphrase = old.EncryptionKeyPassphrase) := by
  obtain ⟨secret, password, passphrase, rest⟩ := srv
  obtain ⟨oldSecret, oldPassword, oldPassphrase, oldRest⟩ := old
  simp only [kept]
  by_cases secrets : secret = "" ∧ password = ""
  · by_cases phrase : passphrase = ""
    · simp [secrets, phrase]
    · simp [secrets, phrase, and_comm]
  · by_cases phrase : passphrase = ""
    · simp [secrets, phrase]
      tauto
    · simp [secrets, phrase]
      tauto

theorem mergeMail_same (given current : Mail) :
    mergeMail given current = current ↔ given.SMTPHost = "" ∨
      (given.SMTPHost = current.SMTPHost ∧ given.SMTPPort = current.SMTPPort ∧
        given.SMTPUsername = current.SMTPUsername ∧
        (given.SMTPPassword = "" ∨ given.SMTPPassword = current.SMTPPassword)) := by
  obtain ⟨host, port, username, password⟩ := given
  obtain ⟨oldHost, oldPort, oldUsername, oldPassword⟩ := current
  simp only [mergeMail]
  by_cases unset : host = ""
  · simp [unset]
  · by_cases blank : password = ""
    · simp [unset, blank]
    · simp [unset, blank]

theorem mergeServers_same (bundle : SettingsBundle Value)
    (current : String → Option (PBSServer Value)) :
    bundle.PBSServers.foldl putServer current = current ↔
      ∀ e ∈ bundle.PBSServers, ∃ old, current e.1 = some old ∧ kept (some old) e.2 = old := by
  obtain ⟨others, own⟩ := putServers_lookup bundle.PBSServers current bundle.distinct
  constructor
  · intro same e listed
    have there := own e listed
    rw [same] at there
    cases found : current e.1 with
    | none =>
        rw [found] at there
        cases there
    | some old =>
        rw [found] at there
        exact ⟨old, rfl, (Option.some.inj there).symm⟩
  · intro known
    funext id
    by_cases given : id ∈ bundle.PBSServers.map Prod.fst
    · obtain ⟨e, listed, rfl⟩ := List.mem_map.mp given
      obtain ⟨old, there, same⟩ := known e listed
      rw [own e listed, there, same]
    · exact others id given

theorem mergeLogins_same (bundle : SettingsBundle Value) (current : Bytes → Option ShareLogin) :
    bundle.ShareLogins.foldl (putLogin p) current = current ↔
      ∀ key rest last, loginsFor p bundle.ShareLogins key = rest ++ [last] →
        lastPassword (passwordOf (current key)) (rest ++ [last]) = [] ∨
          current key = some {
            Server := p.trim last.Server
            Username := last.Username
            Password := lastPassword (passwordOf (current key)) (rest ++ [last]) } := by
  constructor
  · intro same key rest last given
    have there := congrFun same key
    rw [putLogins_lookup, given, mergeLogins_last] at there
    split at there
    · exact .inl ‹_›
    · exact .inr there.symm
  · intro known
    funext key
    rw [putLogins_lookup]
    obtain none_given | ⟨rest, last, given⟩ :=
      List.eq_nil_or_concat' (loginsFor p bundle.ShareLogins key)
    · rw [none_given]
      rfl
    · rw [given, mergeLogins_last]
      split
      · rfl
      · rename_i some_given
        exact ((known key rest last given).resolve_left some_given).symm

theorem mergeConfig_same (bundle : SettingsBundle Value) (forDeployment : Bool)
    (config : Config Value) :
    mergeConfig p bundle forDeployment config = config ↔ Known p bundle forDeployment config := by
  constructor
  · intro same
    have default := congrArg Config.DefaultPBSID same
    have theme := congrArg Config.Theme same
    simp only [mergeConfig] at default theme
    exact {
      servers := fun e listed => by
        obtain ⟨old, there, kept⟩ :=
          (mergeServers_same bundle _).mp (congrArg Config.PBSServers same) e listed
        exact ⟨old, there, (kept_same e.2 old).mp kept⟩
      default := by
        split at default
        · exact .inr (.inr default)
        · rename_i left
          cases forDeployment <;> simp at left ⊢ <;> tauto
      theme := by
        cases given : bundle.Theme with
        | none => exact .inl rfl
        | some value =>
            rw [given] at theme
            exact .inr theme
      mail := (mergeMail_same _ _).mp (congrArg Config.mail same)
      logins := (mergeLogins_same bundle _).mp (congrArg Config.ShareLogins same) }
  · intro known
    have servers : bundle.PBSServers.foldl putServer config.PBSServers = config.PBSServers := by
      rw [mergeServers_same]
      intro e listed
      obtain ⟨old, there, agrees⟩ := known.servers e listed
      exact ⟨old, there, (kept_same e.2 old).mpr agrees⟩
    have default : (if bundle.DefaultPBSID ≠ "" ∧ (!forDeployment ∨ config.DefaultPBSID = "") then
        bundle.DefaultPBSID else config.DefaultPBSID) = config.DefaultPBSID := by
      have stated := known.default
      split
      · cases forDeployment <;> simp at stated ⊢ <;> tauto
      · rfl
    have theme : bundle.Theme.or config.Theme = config.Theme := by
      rcases known.theme with none_given | same
      · rw [none_given, Option.none_or]
      · rw [same, Option.or_self]
    have mail := (mergeMail_same _ _).mpr known.mail
    have logins := (mergeLogins_same bundle _).mpr known.logins
    rw [mergeConfig, servers, default, theme, mail, logins]

/-- An error comes with the merged configuration in memory, and on disk unless saving it failed;
else the jobs file is the merged list. -/
theorem merge_cases (bundle : SettingsBundle Value) (forDeployment : Bool) (faults : Faults)
    (app : App Value Text) (result : App Value Text × Result)
    (merged : mergeSettingsBundle p bundle forDeployment faults app = result) :
    (faults.save ≠ none ∧ result.2.err.isSome ∧
      result.1 = { app with config := mergeConfig p bundle forDeployment app.config }) ∨
    (faults.save = none ∧ ¬ JobsGoThrough p faults app ∧ result.2.err.isSome ∧
      result.1 = { app with
        config := mergeConfig p bundle forDeployment app.config
        configFile := p.saved (mergeConfig p bundle forDeployment app.config) }) ∨
    (faults.save = none ∧ JobsGoThrough p faults app ∧ ¬ result.2.err.isSome ∧
      ∃ existing, JobsFile.getScheduledJobs p.host none app.jobsFile = .ok existing ∧
        result.1 = {
          config := mergeConfig p bundle forDeployment app.config
          configFile := p.saved (mergeConfig p bundle forDeployment app.config)
          jobsFile := .holds (mergeJobs p bundle forDeployment existing) }) := by
  subst merged
  unfold mergeSettingsBundle
  split
  · rename_i text failed
    exact .inl ⟨by rw [failed]; nofun, rfl, rfl⟩
  · rename_i saved
    unfold importJobs
    refine .inr ?_
    dsimp only
    split
    · rename_i text unread
      refine .inl ⟨saved, fun through => ?_, rfl, rfl⟩
      obtain ⟨existing, read⟩ := through.read
      rw [unread] at read
      cases read
    · rename_i existing read
      split
      · rename_i text failed
        have stuck : ¬ JobsGoThrough p faults app := fun through => by
          rw [through.path] at failed
          cases failed
        exact .inl ⟨saved, stuck, rfl, rfl⟩
      · rename_i text _ failed
        have stuck : ¬ JobsGoThrough p faults app := fun through => by
          rw [through.marshal] at failed
          cases failed
        exact .inl ⟨saved, stuck, rfl, rfl⟩
      · rename_i path marshal
        cases write : faults.write with
        | some text =>
            have stuck : ¬ JobsGoThrough p faults app := fun through => by
              rw [through.write] at write
              cases write
            exact .inl ⟨saved, stuck, rfl, rfl⟩
        | none =>
            obtain ⟨-, found⟩ := JobsFile.read_ok p.host faults.read app.jobsFile existing read
            exact .inr ⟨saved, ⟨⟨existing, read⟩, path, marshal, write⟩, nofun, existing, found, rfl⟩

theorem kept_secrets (old srv : PBSServer Value) :
    (srv.Secret = "" → srv.Password = "" → (kept (some old) srv).Secret = old.Secret ∧
      (kept (some old) srv).Password = old.Password) ∧
    (srv.EncryptionKeyPassphrase = "" →
      (kept (some old) srv).EncryptionKeyPassphrase = old.EncryptionKeyPassphrase) := by
  constructor
  · intro secret password
    by_cases phrase : srv.EncryptionKeyPassphrase = ""
    · simp [kept, secret, password, phrase]
    · simp [kept, secret, password, phrase]
  · intro phrase
    by_cases secrets : srv.Secret = "" ∧ srv.Password = ""
    · simp [kept, secrets, phrase]
    · simp [kept, secrets, phrase]

theorem merges (bundle : SettingsBundle Value) (forDeployment : Bool) (app : App Value Text)
    (existing : List (Job (Own Value)))
    (read : JobsFile.getScheduledJobs p.host none app.jobsFile = .ok existing) :
    Merges p bundle app {
      config := mergeConfig p bundle forDeployment app.config
      configFile := p.saved (mergeConfig p bundle forDeployment app.config)
      jobsFile := .holds (mergeJobs p bundle forDeployment existing) } := by
  obtain ⟨others, own⟩ := putServers_lookup bundle.PBSServers app.config.PBSServers bundle.distinct
  exact {
    servers := others
    logins := fun key none_given => by
      change bundle.ShareLogins.foldl (putLogin p) app.config.ShareLogins key = _
      rw [putLogins_lookup, none_given]
      rfl
    jobs := ⟨existing, _, read, rfl, mergeJobs_unnamed bundle forDeployment existing⟩
    other := rfl
    file := rfl
    server_secrets := fun e listed old there => by
      refine ⟨kept (some old) e.2, ?_, kept_secrets old e.2⟩
      rw [← there]
      exact own e listed
    mail_password := fun blank => by
      change (mergeMail bundle.mail app.config.mail).SMTPPassword = _
      unfold mergeMail
      split
      · rfl
      · rfl
    login_passwords := fun key old there empty => by
      change ∃ new, bundle.ShareLogins.foldl (putLogin p) app.config.ShareLogins key = some new ∧ _
      rw [putLogins_lookup, there]
      exact mergeLogins_kept empty }

/-- An import merges or changes nothing exactly when no step fails once the configuration is
merged, or the bundle has nothing new for it and the file holds it as it is saved. -/
theorem import_exact (p : Program Value Text) (bundle : SettingsBundle Value)
    (forDeployment : Bool) (faults : Faults) (app : App Value Text) :
    Promised p bundle forDeployment faults app ↔
      (faults.save = none ∧ JobsGoThrough p faults app) ∨
      (Known p bundle forDeployment app.config ∧
        (faults.save ≠ none ∨ app.configFile = p.saved app.config)) := by
  unfold Promised
  rw [← mergeConfig_same]
  rcases @merge_cases _ _ p bundle forDeployment faults app _ rfl with ⟨unsaved, failed, same⟩ | ⟨saved, stuck, failed, same⟩ |
    ⟨saved, through, done, existing, read, same⟩
  · rw [if_pos failed, same]
    constructor
    · exact fun unchanged => .inr ⟨congrArg App.config unchanged, .inl unsaved⟩
    · rintro (⟨saved, -⟩ | ⟨known, -⟩)
      · exact absurd saved unsaved
      · rw [known]
  · rw [if_pos failed, same]
    constructor
    · intro unchanged
      have known := congrArg App.config unchanged
      have file := congrArg App.configFile unchanged
      dsimp only at known file
      rw [known] at file
      exact .inr ⟨known, .inr file.symm⟩
    · rintro (⟨-, through⟩ | ⟨known, unsaved | file⟩)
      · exact absurd through stuck
      · exact absurd saved unsaved
      · rw [known, ← file]
  · rw [if_neg done, same]
    constructor
    · exact fun _ => .inl ⟨saved, through⟩
    · exact fun _ => merges bundle forDeployment app existing read

end Merged

/-! A bundle with a default server only, and a jobs file that cannot be read. -/

def noMail : Mail := ⟨"", "", "", ""⟩

def onlyDefault : SettingsBundle Unit where
  PBSServers := []
  DefaultPBSID := "pbs2"
  Theme := none
  mail := noMail
  ShareLogins := []
  ScheduledJobs := []
  SourceHost := []
  distinct := .nil

def program : Program Unit String where
  lower := id
  trim := id
  equalFold := (· = ·)
  thisHost := []
  host := JobsFile.plainHost
  now := 0
  noPartitions := ()
  saved := (·.DefaultPBSID)

def damaged : App Unit String where
  config := {
    PBSServers := fun _ => none
    DefaultPBSID := "pbs1"
    Theme := none
    mail := noMail
    ShareLogins := fun _ => none
    other := () }
  configFile := "pbs1"
  jobsFile := .damaged "unexpected end of JSON input"

theorem failed_import_saved :
    (mergeSettingsBundle program onlyDefault false {} damaged).2.err =
      some "failed to load existing jobs: unexpected end of JSON input" ∧
    (mergeSettingsBundle program onlyDefault false {} damaged).1.configFile = "pbs2" ∧
    ¬ Promised program onlyDefault false {} damaged := by
  refine ⟨by decide, by decide, fun promised => ?_⟩
  have unchanged := congrArg App.configFile promised
  exact absurd unchanged (by decide)

end ProxmoxBackup.SettingsImport
