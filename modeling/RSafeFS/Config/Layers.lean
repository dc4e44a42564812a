import RSafeFS.Fuse

/-!
# Layer configurations

The configuration file is a YAML map from layer names to option maps. Each layer
reads its own options over a set of defaults and ignores the keys it does not know.
The conversions of `yaml-cpp` from text to numbers and the test for a directory
belong to libraries, so they are parameters here.
-/

namespace RSafeFS

/-- A YAML document after parsing. -/
inductive Yaml where
  | null
  | scalar (text : String)
  | sequence (items : List Yaml)
  | map (entries : List (Yaml × Yaml))

/-- What configuring a stack can throw. The text is the one of the exception. -/
inductive ConfigError where
  | wrongConfig (message : String)
  | stackOperation (message : String)
  | badConversion
  deriving DecidableEq, Repr

/-- What configuring a stack takes from libraries: conversions of YAML scalars and
the test whether a path names a directory. -/
structure Platform where
  toSize : String → Option ℕ
  toInt : String → Option ℤ
  isDouble : String → Bool
  isDirectory : String → Bool

/-- The `eviction_policy` option of the two caches. -/
inductive PolicyName where
  | lru | rnd
  deriving DecidableEq, Repr

/-- The `mode` option of the local layer. -/
inductive LocalMode where
  | local | nfs
  deriving DecidableEq, Repr

/-- `data_cache::cache::config`. -/
structure DataCacheConfig where
  size : ℕ := 1 * 1024 * 1024 * 1024
  blockSize : ℕ := 16 * 1024
  timeOut : ℤ := 30
  evictionPolicy : PolicyName := .rnd
  deriving DecidableEq, Repr

/-- `metadata_cache::cache::config`. -/
structure MetadataCacheConfig where
  size : ℕ := 100 * 1024 * 1024
  timeOut : ℤ := 60
  evictionPolicy : PolicyName := .rnd
  deriving DecidableEq, Repr

/-- `read_ahead::cache::config`. -/
structure ReadAheadConfig where
  size : ℕ := 1 * 1024 * 1024
  deriving DecidableEq, Repr

/-- The options of the local layer. -/
structure LocalConfig where
  path : String := ""
  mode : LocalMode := .local
  deriving DecidableEq, Repr

/-- The options of the RPC client. The flush threshold is a `double` and stays text. -/
structure RpcClientConfig where
  serverAddress : String := ""
  mode : String := ""
  cacheSize : ℕ := 1 * 1024 * 1024 * 1024
  blockSize : ℕ := 1 * 1024 * 1024
  threads : ℕ := 1
  flushThreshold : String := "0.3"
  deriving DecidableEq, Repr

/-- The options of the RPC server. -/
structure RpcServerConfig where
  serverAddress : String := ""
  nQueues : ℕ := 1
  nPollersPerQueue : ℕ := 16
  deriving DecidableEq, Repr

/-- A configured layer, an element of `config::layers_`. -/
inductive LayerConfig where
  | dataCache (config : DataCacheConfig)
  | local (config : LocalConfig)
  | metadataCache (config : MetadataCacheConfig)
  | readAhead (config : ReadAheadConfig)
  | rpcClient (config : RpcClientConfig)
  | rpcServer (config : RpcServerConfig)
  deriving DecidableEq, Repr

/-- `Node::as<std::string>`. -/
def Yaml.asString : Yaml → Except ConfigError String
  | .scalar text => .ok text
  | _ => .error .badConversion

/-- A conversion of a scalar that may fail. -/
def Yaml.convert {α : Type} (parse : String → Option α) : Yaml → Except ConfigError α
  | .scalar text => (parse text).elim (.error .badConversion) .ok
  | _ => .error .badConversion

/-- `data[key]`: the first entry of the map with this key. -/
def Yaml.get? (key : String) : Yaml → Option Yaml
  | .map entries => (entries.find? fun e => e.1.asString.toOption == some key).map Prod.snd
  | _ => none

/-- The pairs a loop over the node visits. The elements of a sequence have no key. -/
def Yaml.pairs : Yaml → List (Yaml × Yaml)
  | .map entries => entries
  | .sequence items => items.map fun item => (.null, item)
  | _ => []

section Parsing

variable {α : Type}

/-- A `parser_` table: how each known option changes the configuration. -/
abbrev OptionParser (α : Type) := String → Option (Yaml → α → Except ConfigError α)

/-- The option loop of a layer's constructor: a known option is read from `data`,
an unknown one is ignored. -/
def parseOptions (parser : OptionParser α) (data : Yaml) :
    List (Yaml × Yaml) → α → Except ConfigError α
  | [], config => .ok config
  | (key, _) :: rest, config => do
    let option ← key.asString
    match parser option with
    | none => parseOptions parser data rest config
    | some parse => do
      let config ← parse ((data.get? option).getD .null) config
      parseOptions parser data rest config

end Parsing

variable (platform : Platform)

/-- The `eviction_policy` parser that both caches share, with its layer's prefix. -/
def parsePolicy (layer : String) (value : Yaml) : Except ConfigError PolicyName := do
  let name ← value.asString
  if name = "lru" then .ok .lru
  else if name = "rnd" then .ok .rnd
  else .error (.wrongConfig (layer ++ ": invalid replacement policy"))

/-- `data_cache_config::data_cache_config`. -/
def dataCacheConfig (data : Yaml) : Except ConfigError DataCacheConfig :=
  parseOptions (fun
    | "size" => some fun v c => return { c with size := ← v.convert platform.toSize }
    | "block_size" => some fun v c => return { c with blockSize := ← v.convert platform.toSize }
    | "time_out" => some fun v c => return { c with timeOut := ← v.convert platform.toInt }
    | "eviction_policy" => some fun v c =>
        return { c with evictionPolicy := ← parsePolicy "data cache" v }
    | _ => none) data data.pairs {}

/-- `metadata_cache_config::metadata_cache_config`. -/
def metadataCacheConfig (data : Yaml) : Except ConfigError MetadataCacheConfig :=
  parseOptions (fun
    | "size" => some fun v c => return { c with size := ← v.convert platform.toSize }
    | "time_out" => some fun v c => return { c with timeOut := ← v.convert platform.toInt }
    | "eviction_policy" => some fun v c =>
        return { c with evictionPolicy := ← parsePolicy "metadata cache" v }
    | _ => none) data data.pairs {}

/-- `read_ahead_config::read_ahead_config`. -/
def readAheadConfig (data : Yaml) : Except ConfigError ReadAheadConfig :=
  parseOptions (fun
    | "size" => some fun v c => return { c with size := ← v.convert platform.toSize }
    | _ => none) data data.pairs {}

/-- `local_config::local_config`. -/
def localConfig (data : Yaml) : Except ConfigError LocalConfig := do
  if (data.get? "path").isNone then
    throw (.wrongConfig "local: requires path")
  parseOptions (fun
    | "path" => some fun v c => do
        let path ← v.asString
        if platform.isDirectory path then return { c with path := path }
        else throw (.wrongConfig ("local: path: \"" ++ path ++ "\" is not a valid directory"))
    | "mode" => some fun v c => do
        let mode ← v.asString
        if mode = "local" then return { c with mode := .local }
        else if mode = "nfs" then return { c with mode := .nfs }
        else throw (.wrongConfig "local: invalid mode")
    | _ => none) data data.pairs {}

/-- `rpc_client_config::rpc_client_config`. -/
def rpcClientConfig (data : Yaml) : Except ConfigError RpcClientConfig := do
  if (data.get? "server_address").isNone then
    throw (.wrongConfig "rpc client: requires server address")
  let config ← parseOptions (fun
    | "server_address" => some fun v (c : RpcClientConfig) =>
        return { c with serverAddress := ← v.asString }
    | "mode" => some fun v c => return { c with mode := ← v.asString }
    | "cache_size" => some fun v c => return { c with cacheSize := ← v.convert platform.toSize }
    | "block_size" => some fun v c => return { c with blockSize := ← v.convert platform.toSize }
    | "threads" => some fun v c => return { c with threads := ← v.convert platform.toSize }
    | "flush_threshold" => some fun v c => do
        let text ← v.asString
        if platform.isDouble text then return { c with flushThreshold := text }
        else throw .badConversion
    | _ => none) data data.pairs {}
  if config.mode = "" ∨ config.mode = "sync" ∨ config.mode = "async" then return config
  else throw (.wrongConfig "rpc client: invalid mode")

/-- `rpc_server_config::rpc_server_config`. -/
def rpcServerConfig (data : Yaml) : Except ConfigError RpcServerConfig := do
  if (data.get? "server_address").isNone then
    throw (.wrongConfig "server: rpc_server: requires server address")
  parseOptions (fun
    | "server_address" => some fun v c => return { c with serverAddress := ← v.asString }
    | "n_queues" => some fun v c => return { c with nQueues := ← v.convert platform.toSize }
    | "n_pollers_per_queue" => some fun v c =>
        return { c with nPollersPerQueue := ← v.convert platform.toSize }
    | _ => none) data data.pairs {}

/-- One turn of the layer loop of `config::config`: the entry's name selects the layer. -/
def parseLayer (layer : String) (data : Yaml) : Except ConfigError LayerConfig :=
  match layer with
  | "data_cache" => .dataCache <$> dataCacheConfig platform data
  | "local" => .local <$> localConfig platform data
  | "metadata_cache" => .metadataCache <$> metadataCacheConfig platform data
  | "read_ahead" => .readAhead <$> readAheadConfig platform data
  | "rpc_client" => .rpcClient <$> rpcClientConfig platform data
  | "rpc_server" => .rpcServer <$> rpcServerConfig platform data
  | _ => .error (.wrongConfig ("config file: layer \"" ++ layer ++ "\" not implemented"))

/-- The layer loop of `config::config`. -/
def parseLayers : List (Yaml × Yaml) → Except ConfigError (List LayerConfig)
  | [] => .ok []
  | (key, data) :: rest => do
    let layer ← key.asString
    let config ← parseLayer platform layer data
    return config :: (← parseLayers rest)

end RSafeFS
