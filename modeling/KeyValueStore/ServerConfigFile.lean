import KeyValueStore.Fault
import KeyValueStore.Lib.TextStream

/-!
# Reading `KVServer.conf`

`read_server_config` takes a key and a number from the file until `eof()`. A failed extraction sets
`failbit`, after which no extraction reads on and none sets `eofbit`: unless the file ends just
there, the loop goes on for ever. So it ends exactly on the files in which every value that more
text follows is a number in the range of `int32_t` (`readServerConfig_returns_iff`). What it leaves
in each parameter is the value of the parameter's last setting (`readServerConfig_settings`).
-/

namespace KeyValueStore

open TextStream

/-- The values of `ServerConfig`. -/
structure ServerConfigValues where
  listeningPort : Int
  socketListenNLimit : Int
  threadPoolSizeInitial : Int
  threadPoolGrowth : Int
  clientsPerThread : Int
  cacheSize : Int
deriving DecidableEq

namespace ServerConfigValues

/-- `ServerConfig()` -/
def new : ServerConfigValues := ⟨12345, 1024, 2, 2, 5, 5⟩

/-- The assignments of the loop. Any other key is only reported. -/
def store (config : ServerConfigValues) (key : List UInt8) (val : Int) : ServerConfigValues :=
  if key = ascii "LISTENING_PORT" then { config with listeningPort := val }
  else if key = ascii "SOCKET_LISTEN_N_LIMIT" then { config with socketListenNLimit := val }
  else if key = ascii "THREAD_POOL_SIZE_INITIAL" then { config with threadPoolSizeInitial := val }
  else if key = ascii "THREAD_POOL_GROWTH" then { config with threadPoolGrowth := val }
  else if key = ascii "CLIENTS_PER_THREAD" then { config with clientsPerThread := val }
  else if key = ascii "CACHE_SIZE" then { config with cacheSize := val }
  else config

end ServerConfigValues

/-- The variables of `read_server_config`. -/
structure ConfigReader where
  config : ServerConfigValues
  key : List UInt8
  val : Int
  confFile : Stream

namespace ConfigReader

/-- One turn of the loop. -/
def turn (r : ConfigReader) : ConfigReader :=
  let (key, confFile) := readWord r.confFile
  let (val, confFile) := readNumber toInt32 confFile
  let key := key.getD r.key
  let val := val.getD r.val
  ⟨r.config.store key val, key, val, confFile⟩

/-- The loop, on a file that is open. `fuel` bounds the number of tests. -/
def loop : Nat → ConfigReader → Except Fault ServerConfigValues
  | 0, _ => .error .endless
  | fuel + 1, r => if r.confFile.eof then .ok r.config else loop fuel r.turn

end ConfigReader

/-- `read_server_config`, on a file that cannot be opened or one with the given content. `val` is
not initialised. -/
def readServerConfig (fuel : Nat) (config : ServerConfigValues) (val : Int) :
    Option (List UInt8) → Except Fault ServerConfigValues
  | none => .ok config
  | some text => ConfigReader.loop fuel ⟨config, [], val, .of text⟩

/-! ## The files that are read to their end -/

/-- What follows the first word of a text, from the next word on. -/
def afterKey (text : List UInt8) : List UInt8 :=
  ((text.dropWhile isBlank).dropWhile fun c => !isBlank c).dropWhile isBlank

/-- A field that is a number in the range of `int32_t`. -/
def IsInt32 (f : List UInt8) : Prop := digits f ≠ [] ∧ -2 ^ 31 ≤ signed f ∧ signed f < 2 ^ 31

/-- Every value that more text follows is a number. -/
inductive ReadableConfig : List UInt8 → Prop
  /-- Nothing follows the value, or there is none. -/
  | last {text : List UInt8} (h : (field (afterKey text)).2 = []) : ReadableConfig text
  | next {text : List UInt8} (hvalue : IsInt32 (field (afterKey text)).1)
    (hrest : ReadableConfig (field (afterKey text)).2) : ReadableConfig text

theorem toInt32_ok_iff (f : List UInt8) : (toInt32 f).2 = true ↔ IsInt32 f := by
  rw [toInt32, IsInt32]
  split_ifs with hdigits hlow hhigh
  · simp [hdigits]
  · simp only [false_iff]
    omega
  · simp only [false_iff]
    omega
  · simp only [true_iff]
    exact ⟨hdigits, by omega, by omega⟩

namespace ConfigReader

variable {r : ConfigReader} {text : List UInt8}

theorem turn_extractions (r : ConfigReader) :
    r.turn.confFile = (readNumber toInt32 (readWord r.confFile).2).2 := rfl

/-- **What a turn leaves of the file**: the text after the value. If there is some, the only error
is that of the number. -/
theorem turn_confFile (h : r.confFile = .of text) :
    r.turn.confFile.rest = (field (afterKey text)).2 ∧
      r.turn.confFile.eof = (field (afterKey text)).2.isEmpty ∧
      ((field (afterKey text)).2 ≠ [] →
        r.turn.confFile.fail = !(toInt32 (field (afterKey text)).1).2) := by
  rw [turn_extractions, h]
  by_cases hkey : text.dropWhile isBlank = []
  · have hafter : afterKey text = [] := by rw [afterKey, hkey]; rfl
    rw [readWord_blank hkey, readNumber_error rfl, hafter]
    exact ⟨rfl, rfl, fun h => absurd rfl h⟩
  · rw [readWord_of hkey]
    by_cases hend : (text.dropWhile isBlank).dropWhile (fun c => !isBlank c) = []
    · have hafter : afterKey text = [] := by rw [afterKey, hend]; rfl
      rw [hend, readNumber_error rfl, hafter]
      exact ⟨rfl, rfl, fun h => absurd rfl h⟩
    · rw [List.isEmpty_eq_false_iff.2 hend]
      by_cases hval : afterKey text = []
      · rw [show (⟨_, false, false⟩ : Stream) = .of _ from rfl, readNumber_blank hval, hval]
        exact ⟨rfl, rfl, fun h => absurd rfl h⟩
      · rw [show (⟨_, false, false⟩ : Stream) = .of _ from rfl, readNumber_of hval]
        exact ⟨rfl, rfl, fun _ => rfl⟩

theorem length_afterKey (hrest : (field (afterKey text)).2 ≠ []) :
    (field (afterKey text)).2.length < text.length := by
  have hkey : text.dropWhile isBlank ≠ [] := by
    intro hnil
    rw [afterKey, hnil] at hrest
    exact hrest rfl
  obtain ⟨c, rest, hcons⟩ := List.exists_cons_of_ne_nil hkey
  have hc : isBlank c = false := Words.head_dropWhile isBlank text (by rw [hcons]; rfl)
  have hle : (field (afterKey text)).2.length ≤ rest.length := by
    apply (length_field_le _).trans
    rw [afterKey, hcons, List.dropWhile_cons_of_pos (by simp [hc])]
    exact (List.length_dropWhile_le ..).trans (List.length_dropWhile_le ..)
  have hlen := List.length_dropWhile_le isBlank text
  rw [hcons, List.length_cons] at hlen
  omega

/-- **After a failed extraction** that is not at the end of the file the loop is stuck. -/
theorem loop_failed (fuel : Nat) (heof : r.confFile.eof = false) (hfail : r.confFile.fail = true) :
    loop fuel r = .error .endless := by
  induction fuel generalizing r with
  | zero => rfl
  | succ fuel ih =>
    have herror : (r.confFile.eof || r.confFile.fail) = true := by rw [heof, hfail]; rfl
    have hturn : r.turn.confFile = r.confFile := by
      rw [turn_extractions, readWord_error herror, readNumber_error (Bool.or_true _)]
      show { r.confFile with fail := true } = r.confFile
      rw [← hfail]
    rw [loop, heof, if_neg Bool.false_ne_true]
    exact ih (by rw [hturn, heof]) (by rw [hturn, hfail])

/-- The loop ends on a readable text and on no other. -/
theorem loop_returns_iff (h : r.confFile = .of text) :
    (∃ fuel config, loop fuel r = .ok config) ↔ ReadableConfig text := by
  induction hlen : text.length using Nat.strong_induction_on generalizing text r with
  | _ n ih =>
    obtain ⟨hrest, heof, hfail⟩ := turn_confFile h
    have hstep : (∃ fuel config, loop fuel r = .ok config) ↔
        ∃ fuel config, loop fuel r.turn = .ok config := by
      constructor
      · rintro ⟨fuel, config, hloop⟩
        cases fuel with
        | zero => cases hloop
        | succ fuel =>
          rw [loop, h, if_neg (by simp [Stream.of])] at hloop
          exact ⟨fuel, config, hloop⟩
      · rintro ⟨fuel, config, hloop⟩
        refine ⟨fuel + 1, config, ?_⟩
        rw [loop, h, if_neg (by simp [Stream.of])]
        exact hloop
    rw [hstep]
    -- a turn that reads to the end sets `eofbit`, whether or not it has read a number
    by_cases hnil : (field (afterKey text)).2 = []
    · refine iff_of_true ⟨1, r.turn.config, ?_⟩ (.last hnil)
      rw [loop, heof, hnil]
      rfl
    · rw [List.isEmpty_eq_false_iff.2 hnil] at heof
      cases hok : (toInt32 (field (afterKey text)).1).2 with
      | true =>
        have hfile : r.turn.confFile = .of (field (afterKey text)).2 := by
          have hno := hfail hnil
          rw [hok] at hno
          cases hturn : r.turn.confFile with
          | mk rest eof fail =>
            rw [hturn] at hrest heof hno
            simp only at hrest heof hno
            rw [hrest, heof, hno]
            rfl
        rw [ih _ (hlen ▸ length_afterKey hnil) hfile rfl]
        refine ⟨fun hread => .next ((toInt32_ok_iff _).1 hok) hread, ?_⟩
        intro hread
        cases hread with
        | last hend => exact absurd hend hnil
        | next hvalue hread => exact hread
      | false =>
        -- from now on nothing is read, and `eof` stays false
        have hstuck : r.turn.confFile.fail = true := by rw [hfail hnil, hok]; rfl
        refine iff_of_false ?_ fun hread => ?_
        · rintro ⟨fuel, config, hloop⟩
          rw [loop_failed fuel heof hstuck] at hloop
          cases hloop
        · cases hread with
          | last hend => exact hnil hend
          | next hvalue hread =>
            rw [(toInt32_ok_iff _).2 hvalue] at hok
            cases hok

end ConfigReader

/-- **`read_server_config` ends** on a file, whatever the variables hold before, exactly if the file
cannot be opened or every value that more text follows is a number. -/
theorem readServerConfig_returns_iff (config : ServerConfigValues) (val : Int)
    (file : Option (List UInt8)) :
    (∃ fuel config', readServerConfig fuel config val file = .ok config') ↔
      ∀ text, file = some text → ReadableConfig text := by
  cases file with
  | none => exact iff_of_true ⟨0, config, rfl⟩ nofun
  | some text =>
    have hfile : (ConfigReader.mk config [] val (.of text)).confFile = .of text := rfl
    have hloop := ConfigReader.loop_returns_iff hfile
    exact hloop.trans ⟨fun h _ heq => Option.some.inj heq ▸ h, fun h => h text rfl⟩

/-- The file that comes with the server. -/
example : readServerConfig 8 .new 0 (some (ascii "LISTENING_PORT 12345
SOCKET_LISTEN_N_LIMIT 1024
THREAD_POOL_SIZE_INITIAL 10
THREAD_POOL_GROWTH 1
CLIENTS_PER_THREAD 1
CACHE_SIZE 3
")) = .ok ⟨12345, 1024, 10, 1, 1, 3⟩ := by decide +kernel

/-- The port is not a number. -/
theorem readServerConfig_not_a_number :
    ¬ ∃ fuel config', readServerConfig fuel .new 0 (some (ascii "LISTENING_PORT abc\n")) =
      .ok config' := by
  rintro ⟨fuel, config', h⟩
  cases fuel with
  | zero => cases h
  | succ fuel =>
    change ConfigReader.loop fuel (ConfigReader.turn ⟨.new, [], 0, .of _⟩) = .ok config' at h
    rw [ConfigReader.loop_failed fuel (by decide +kernel) (by decide +kernel)] at h
    cases h

/-- A number out of range is not one either. -/
example : ¬ IsInt32 (ascii "2147483648") := by
  rw [← toInt32_ok_iff]
  decide +kernel

/-! ## What is read from a well-formed file -/

/-- The parameters of the file. -/
inductive Parameter
  | listeningPort
  | socketListenNLimit
  | threadPoolSizeInitial
  | threadPoolGrowth
  | clientsPerThread
  | cacheSize

def Parameter.name : Parameter → List UInt8
  | listeningPort => ascii "LISTENING_PORT"
  | socketListenNLimit => ascii "SOCKET_LISTEN_N_LIMIT"
  | threadPoolSizeInitial => ascii "THREAD_POOL_SIZE_INITIAL"
  | threadPoolGrowth => ascii "THREAD_POOL_GROWTH"
  | clientsPerThread => ascii "CLIENTS_PER_THREAD"
  | cacheSize => ascii "CACHE_SIZE"

namespace ServerConfigValues

def get (config : ServerConfigValues) : Parameter → Int
  | .listeningPort => config.listeningPort
  | .socketListenNLimit => config.socketListenNLimit
  | .threadPoolSizeInitial => config.threadPoolSizeInitial
  | .threadPoolGrowth => config.threadPoolGrowth
  | .clientsPerThread => config.clientsPerThread
  | .cacheSize => config.cacheSize

theorem get_store_self (config : ServerConfigValues) (p : Parameter) (val : Int) :
    (config.store p.name val).get p = val := by
  cases p <;> rfl

theorem get_store_of_ne (config : ServerConfigValues) {key : List UInt8} {p : Parameter}
    (h : key ≠ p.name) (val : Int) : (config.store key val).get p = config.get p := by
  rw [store]
  cases p <;> split_ifs <;> first | rfl | exact absurd ‹_› h

theorem ext_get {config config' : ServerConfigValues} (h : ∀ p, config.get p = config'.get p) :
    config = config' := by
  cases config
  cases config'
  simp only [mk.injEq]
  exact ⟨h .listeningPort, h .socketListenNLimit, h .threadPoolSizeInitial, h .threadPoolGrowth,
    h .clientsPerThread, h .cacheSize⟩

theorem store_store (config : ServerConfigValues) (key : List UInt8) (val : Int) :
    (config.store key val).store key val = config.store key val := by
  refine ext_get fun p => ?_
  by_cases hkey : key = p.name
  · rw [hkey, get_store_self, get_store_self]
  · rw [get_store_of_ne _ hkey]

/-- The settings of a list, in their order. -/
def storeAll (config : ServerConfigValues) (settings : List (List UInt8 × Int)) :
    ServerConfigValues :=
  settings.foldl (fun config setting => config.store setting.1 setting.2) config

theorem get_storeAll (config : ServerConfigValues) (settings : List (List UInt8 × Int))
    (p : Parameter) :
    (config.storeAll settings).get p =
      (settings.reverse.lookup p.name).getD (config.get p) := by
  induction settings generalizing config with
  | nil => rfl
  | cons setting settings ih =>
    have hget : (config.store setting.1 setting.2).get p =
        ([setting].lookup p.name).getD (config.get p) := by
      by_cases hkey : setting.1 = p.name
      · rw [← hkey, List.lookup_cons_self, hkey]
        exact get_store_self config p _
      · rw [get_store_of_ne _ hkey, List.lookup_cons, beq_eq_false_iff_ne.2 (Ne.symm hkey)]
        rfl
    calc (config.storeAll (setting :: settings)).get p
        = (settings.reverse.lookup p.name).getD ((config.store setting.1 setting.2).get p) := ih _
      _ = ((settings.reverse.lookup p.name).or ([setting].lookup p.name)).getD
            (config.get p) := by rw [hget, Option.getD_or]
      _ = ((setting :: settings).reverse.lookup p.name).getD (config.get p) := by
          rw [List.reverse_cons, List.lookup_append]

end ServerConfigValues

/-- A word that is read as a number. -/
def IsSettingValue (v : List UInt8) : Prop := field v = (v, []) ∧ IsInt32 v

/-- The settings of a file with these keys and values, which may end in a key alone. That one gets
the value read before it. -/
def settingsRead (val : Int) :
    List (List UInt8 × List UInt8) → Option (List UInt8) → List (List UInt8 × Int)
  | [], last => last.toList.map fun key => (key, val)
  | (key, v) :: rest, last => (key, signed v) :: settingsRead (signed v) rest last

/-- The words of such a file. -/
def settingWords (settings : List (List UInt8 × List UInt8)) (last : Option (List UInt8)) :
    List (List UInt8) :=
  settings.flatMap (fun s => [s.1, s.2]) ++ last.toList

theorem toInt32_fst {f : List UInt8} (h : IsInt32 f) : (toInt32 f).1 = signed f := by
  obtain ⟨hdigits, hlow, hhigh⟩ := h
  rw [toInt32, if_neg hdigits, if_neg (by omega), if_neg (by omega)]

namespace ConfigReader

variable {r : ConfigReader} {key v : List UInt8} {ws : List (List UInt8)}

theorem turn_setting (h : Yields r.confFile (key :: v :: ws)) (hv : IsSettingValue v) :
    ∃ confFile, r.turn = ⟨r.config.store key (signed v), key, signed v, confFile⟩ ∧
      Yields confFile ws := by
  obtain ⟨s, hkey, hs⟩ := h.readWord
  obtain ⟨s', hval, hs'⟩ := hs.readField hv.1 ((toInt32_ok_iff v).2 hv.2)
  rw [toInt32_fst hv.2] at hval
  exact ⟨s', by simp only [turn, hkey, hval, Option.getD_some], hs'⟩

theorem turn_key (h : Yields r.confFile [key]) :
    ∃ confFile, r.turn = ⟨r.config.store key r.val, key, r.val, confFile⟩ ∧
      confFile.eof = true := by
  obtain ⟨s, hkey, hs⟩ := h.readWord
  obtain ⟨s', hval, heof⟩ : ∃ s', readNumber toInt32 s = (none, s') ∧ s'.eof = true :=
    hs.readNumber_end
  exact ⟨s', by simp only [turn, hkey, hval, Option.getD_some, Option.getD_none], heof⟩

theorem turn_blank (h : Yields r.confFile []) :
    ∃ confFile, r.turn = ⟨r.config.store r.key r.val, r.key, r.val, confFile⟩ ∧
      confFile.eof = true := by
  obtain ⟨s, hkey, heof⟩ := h.readWord_end
  have herror : (s.eof || s.fail) = true := by rw [heof, Bool.true_or]
  have hval : readNumber toInt32 s = _ := readNumber_error herror
  exact ⟨{ s with fail := true }, by simp only [turn, hkey, hval, Option.getD_none], heof⟩

theorem loop_of_eof {fuel : Nat} (heof : r.confFile.eof = true) :
    loop (fuel + 1) r = .ok r.config := by
  rw [loop, if_pos heof]

/-- **The loop** stores every setting. Blanks behind the last value cost it one more turn, which
stores that value again. -/
theorem loop_settings {settings : List (List UInt8 × List UInt8)} {last : Option (List UInt8)}
    (h : Yields r.confFile (settingWords settings last))
    (hvalue : ∀ s ∈ settings, IsSettingValue s.2) (hagain : r.config.store r.key r.val = r.config) :
    loop (settings.length + 2) r = .ok (r.config.storeAll (settingsRead r.val settings last)) := by
  induction settings generalizing r with
  | nil =>
    cases last with
    | none =>
      by_cases heof : r.confFile.eof = true
      · exact loop_of_eof heof
      · obtain ⟨confFile, hturn, heof'⟩ := turn_blank h
        rw [List.length_nil, loop, if_neg heof, hturn, loop_of_eof heof', hagain]
        rfl
    | some key =>
      have hopen : r.confFile.eof = false := by rw [h.good.1]; rfl
      obtain ⟨confFile, hturn, heof⟩ := turn_key h
      rw [List.length_nil, loop, hopen, if_neg Bool.false_ne_true, hturn, loop_of_eof heof]
      rfl
  | cons s settings ih =>
    have hopen : r.confFile.eof = false := by rw [h.good.1]; rfl
    obtain ⟨confFile, hturn, hrest⟩ := turn_setting h (hvalue s List.mem_cons_self)
    rw [List.length_cons, Nat.add_right_comm, loop, hopen, if_neg Bool.false_ne_true, hturn]
    exact ih hrest (fun s hs => hvalue s (List.mem_cons_of_mem _ hs))
      (ServerConfigValues.store_store _ _ _)

end ConfigReader

/-- **What the server is configured with.** A file whose words are keys with their numbers is read
to its end, and each parameter has the value of its last setting, or the one it had if there is
none. -/
theorem readServerConfig_settings (config : ServerConfigValues) (val : Int) (text : List UInt8)
    (settings : List (List UInt8 × List UInt8)) (last : Option (List UInt8))
    (hwords : Words.words isBlank text = settingWords settings last)
    (hvalue : ∀ s ∈ settings, IsSettingValue s.2) :
    ∃ config', readServerConfig (settings.length + 2) config val (some text) = .ok config' ∧
      ∀ p : Parameter, config'.get p =
        ((settingsRead val settings last).reverse.lookup p.name).getD (config.get p) := by
  have hyields : Yields (.of text) (settingWords settings last) := hwords ▸ yields_of text
  have hnone : config.store [] val = config := ServerConfigValues.ext_get fun p =>
    ServerConfigValues.get_store_of_ne config (by cases p <;> decide) val
  exact ⟨_, ConfigReader.loop_settings hyields hvalue hnone,
    fun p => ServerConfigValues.get_storeAll config _ p⟩

/-- The cache size is set twice, and the last key has no value. -/
theorem readServerConfig_settings_twice :
    ∃ config', readServerConfig 4 .new 0 (some (ascii "CACHE_SIZE 3
CACHE_SIZE +7 CLIENTS_PER_THREAD
")) = .ok config' ∧ ∀ p : Parameter, config'.get p =
      ([(ascii "CLIENTS_PER_THREAD", 7), (ascii "CACHE_SIZE", 7), (ascii "CACHE_SIZE", 3)].lookup
        p.name).getD (ServerConfigValues.new.get p) :=
  readServerConfig_settings .new 0 _
    [(ascii "CACHE_SIZE", ascii "3"), (ascii "CACHE_SIZE", ascii "+7")]
    (some (ascii "CLIENTS_PER_THREAD")) (by decide +kernel) (by
      intro s hs
      simp only [List.mem_cons, List.not_mem_nil, or_false] at hs
      rcases hs with rfl | rfl <;>
        exact ⟨by decide +kernel, (toInt32_ok_iff _).1 (by decide +kernel)⟩)

end KeyValueStore
