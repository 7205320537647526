import ZstCodec.Session.World
import ZstCodec.Decompress.Decompressor

/-! # Making settings, dictionaries and codecs

Constructors check their arguments in a fixed order, so that of several mistakes a certain one is reported. -/

namespace ZstCodec.Session

/-! ### Settings -/

/-- The parameters by name, with their defaults. The workers come first: setting them undoes what is set about their jobs. -/
def parameterTable : List (String × Parameter × Int) := [
  ("threads", .workers, 0), ("format", .format, 0), ("compression_level", .level, 0),
  ("window_log", .windowLog, 0), ("hash_log", .hashLog, 0), ("chain_log", .chainLog, 0),
  ("search_log", .searchLog, 0), ("min_match", .minMatch, 0), ("target_length", .targetLength, 0),
  ("strategy", .strategy, -1), ("write_content_size", .contentSizeFlag, 1), ("write_checksum", .checksumFlag, 0),
  ("write_dict_id", .dictIdFlag, 0), ("job_size", .jobSize, 0), ("overlap_log", .overlapLog, -1),
  ("force_max_window", .forceMaxWindow, 0), ("enable_ldm", .longDistance, 0), ("ldm_hash_log", .ldmHashLog, 0),
  ("ldm_min_match", .ldmMinMatch, 0), ("ldm_bucket_size_log", .ldmBucketLog, 0),
  ("ldm_hash_rate_log", .ldmHashRateLog, -1)]

def minusOneUnsets : Parameter → Bool
  | .strategy | .overlapLog | .ldmHashRateLog => true
  | _ => false

def setParameter (s : Settings) (p : Parameter) (v : Value) : Except Failure Settings := do
  let n ← v.toWord
  match s.set p n with
  | .ok s => return s
  | .error e => throw (.codec .settingParameter e)

def threadCount (processors : Int) (v : Value) : Except Failure Value := do
  if ← v.less 0 then return .int processors else return v

def settingsOf (processors : Int) (a : Args) : Except Failure Settings := do
  a.check [] (parameterTable.map (·.1))
  let threads ← threadCount processors (a.getD "threads" (.int 0))
  parameterTable.foldlM
    (fun s (name, p, default) =>
      let v := if p = .workers then threads else a.getD name (.int default)
      setParameter s p (if minusOneUnsets p && v.isNumber (-1) then .int 0 else v))
    {}

def tuningArgs (t : Tuning) : List (String × Nat) := [
  ("window_log", t.windowLog), ("chain_log", t.chainLog), ("hash_log", t.hashLog),
  ("search_log", t.searchLog), ("min_match", t.minMatch), ("target_length", t.targetLength),
  ("strategy", t.strategy.rank)]

def levelTuning (level source dict : Value) : Except Failure Tuning := do
  let level ← level.toWord
  let source ← source.toSize
  let dict ← dict.toSize
  return Tuning.ofLevel level (if source = Value.unknownSize then 0 else source) dict

def settingsOfLevel (processors : Int) (a : Args) : Except Failure Settings := do
  let some level := a.get? "level" | throw .wrongType
  let t ← levelTuning level (a.getD "source_size" (.int 0)) (a.getD "dict_size" (.int 0))
  let rest := a.filter fun (name, _) => ! ["level", "source_size", "dict_size"].contains name
  let byLevel := (tuningArgs t).filter fun (name, _) => (rest.lookup name).isNone
  settingsOf processors (rest ++ byLevel.map fun (name, n) => (name, .int n))

def showSettings (s : Settings) : List (String × Int) := parameterTable.map fun (name, p, _) => (name, s.get p)

/-- The parameters in the order in which a compressor takes them over. -/
def copyOrder : List Parameter := [
  .format, .level, .windowLog, .hashLog, .chainLog, .searchLog, .minMatch, .targetLength, .strategy, .contentSizeFlag,
  .checksumFlag, .dictIdFlag, .workers, .jobSize, .overlapLog, .forceMaxWindow, .longDistance, .ldmHashLog, .ldmMinMatch,
  .ldmBucketLog, .ldmHashRateLog]

/-- The copy that a compressor makes of its settings: each parameter is read and set anew. -/
def copySettings (s : Settings) : Except Failure Settings :=
  copyOrder.foldlM (fun t p => setParameter t p (.int (s.get p))) {}

/-! ### Dictionaries -/

def contentTypeOf (v : Value) : Except Failure ZstCodec.Dictionary.ContentType :=
  if v.isNumber 0 then .ok .auto
  else if v.isNumber 1 then .ok .raw
  else if v.isNumber 2 then .ok .full
  else .error .dictType

def dictionaryOf (a : Args) : Except Failure HeldDictionary := do
  a.check ["data"] ["dict_type", "k", "d"]
  match a.getD "data" .none with
  | .bytes .constant bytes =>
    let type ← contentTypeOf (a.getD "dict_type" (.int 0))
    return { bytes, type, k := a.getD "k" (.int 0), d := a.getD "d" (.int 0) }
  | _ => throw .assertion

def precompute (d : HeldDictionary) (level : Value) (hasParams : Bool) : Except Failure HeldDictionary := do
  if level.truth && hasParams then throw .levelOrParams
  if ! level.truth && ! hasParams then throw .neitherLevelNorParams
  if ! level.truth then throw .wrongType
  let t ← levelTuning level (.int 0) (.int d.bytes.size)
  match Compress.Dictionary.prepare (Settings.ofTuning t) 0 d.bytes d.type with
  | .error _ => throw .precomputeFailed
  | .ok prepared => return { d with prepared := some prepared }

/-! ### Arguments that are objects -/

def resolveSettings : Value → SessionM (Option Settings)
  | .none => return none
  | .map fields => do
    let p := (← get).processors
    match fields.lookup "from_level" with
    | none => return some (← settingsOf p fields)
    | some level =>
      return some (← settingsOfLevel p (("level", level) :: fields.filter (·.1 ≠ "from_level")))
  | .named name => do
    match ← thingAt (← findNamed name) with
    | .settings s => return some s
    | _ => throw .noAttribute
  | _ => throw .noAttribute

def precomputeWith (d : HeldDictionary) (a : Args) : SessionM HeldDictionary := do
  let params ← resolveSettings (a.getD "compression_params" .none)
  a.check [] ["level", "compression_params"]
  precompute d (a.getD "level" (.int 0)) params.isSome

def resolveDictionary : Value → SessionM (Option HeldDictionary)
  | .none => return none
  | .map fields => do
    let d ← dictionaryOf (fields.filter (·.1 ≠ "precompute"))
    match fields.lookup "precompute" with
    | some (.map a) => return some (← precomputeWith d a)
    | _ => return some d
  | .named name => do
    match ← thingAt (← findNamed name) with
    | .dictionary d => return some d
    | _ => throw .noAttribute
  | _ => throw .noAttribute

/-! ### Codecs -/

def flagValue (b : Bool) : Value := .int (if b then 1 else 0)

def plainSettings (level threads : Value) (checksum contentSize dictId : Value) : Except Failure Settings := do
  let s ← setParameter {} .level level
  let s ← setParameter s .contentSizeFlag (match contentSize with | .none => .int 1 | v => v)
  let s ← setParameter s .checksumFlag (flagValue checksum.truth)
  let s ← setParameter s .dictIdFlag (flagValue (match dictId with | .none => true | v => v.truth))
  if threads.truth then setParameter s .workers threads else return s

def choiceOf : Option HeldDictionary → Compress.DictionaryChoice
  | none => .none
  | some d =>
    if d.bytes.size = 0 then .none
    else match d.prepared with
      | some p => .prepared p
      | none => .loaded d.bytes d.type

def isGiven : Value → Bool
  | .none => false
  | _ => true

def maxLevel : Int := Tuning.maxLevel

def compressorOf (processors : Int) (a : Args) (dict : Option HeldDictionary) (params : Option Settings) :
    Except Failure Compress.Context := do
  a.check [] ["level", "dict_data", "compression_params", "write_checksum", "write_content_size", "write_dict_id",
    "threads"]
  let level := a.getD "level" (.int 3)
  if ← level.greater maxLevel then throw .levelTooHigh
  let threads ← threadCount processors (a.getD "threads" (.int 0))
  let checksum := a.getD "write_checksum" .none
  let contentSize := a.getD "write_content_size" .none
  let dictId := a.getD "write_dict_id" .none
  let settings ← match params with
    | none => plainSettings level threads checksum contentSize dictId
    | some s =>
      if isGiven checksum then throw (.bothGiven "write_checksum")
      if isGiven contentSize then throw (.bothGiven "write_content_size")
      if isGiven dictId then throw (.bothGiven "write_dict_id")
      if threads.truth then throw (.bothGiven "threads")
      copySettings s
  return { settings, dictionary := choiceOf dict }

def makeCompressor (a : Args) : SessionM Compress.Context := do
  let params ← resolveSettings (a.getD "compression_params" .none)
  let dict ← resolveDictionary (a.getD "dict_data" .none)
  compressorOf (← get).processors a dict params

def windowOf (v : Value) : Except Failure Nat := do
  if ! v.truth then return ({} : Decompress.Stream).maxWindow
  let n ← v.toSize
  if n < 2 ^ 10 ∨ 2 ^ 31 < n then throw (.codec .settingWindow .parameterOutOfBound)
  return n

def formatOf (v : Value) : Except Failure Frame.Format := do
  let n ← v.toWord
  if n = 0 then return .marked
  else if n = 1 then return .unmarked
  else throw (.codec .settingFormat .parameterOutOfBound)

def decompressorOf (a : Args) (dict : Option HeldDictionary) : Except Failure Decompress.Stream := do
  a.check [] ["dict_data", "max_window_size", "format"]
  let maxWindow ← windowOf (a.getD "max_window_size" (.int 0))
  let format ← formatOf (a.getD "format" (.int 0))
  let dict ← match dict with
    | none => pure none
    | some d =>
      if d.bytes.size = 0 then pure none
      else match Decompress.Dictionary.prepare d.bytes d.type with
        | .error _ => throw .dictionaryFailed
        | .ok d => pure (some d)
  return { format, maxWindow, own := dict, dict }

def makeDecompressor (a : Args) : SessionM Decompress.Stream := do
  let dict ← resolveDictionary (a.getD "dict_data" .none)
  decompressorOf a dict

end ZstCodec.Session
