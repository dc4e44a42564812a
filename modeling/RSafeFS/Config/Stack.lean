import RSafeFS.Config.Layers

/-!
# Composing the layer stack

A function pointer is identified by the source module that defines it and by the
operation it implements. Base layers assign slots of the table directly. Caching
layers copy the table to their static `next_layer` and pass each slot to
`stack_operation_`, whose second parameter is a pointer passed by value.
-/

namespace RSafeFS

/-- The source modules that define operations. -/
inductive SourceModule where
  | localOperations | nfsOperations | metadataCache | dataCache | readAhead | rpcClient
  deriving DecidableEq, Repr

/-- The function that `owner` defines for `op`, such as `metadata_cache_getattr`. -/
structure Handler where
  owner : SourceModule
  op : Op
  deriving DecidableEq, Repr

/-- A `fuse_operations` value; `none` is a null slot. -/
abbrev OperationTable := Op → Option Handler

/-- The slots that `assign_local_operations` fills. The build defines neither
`HAVE_UTIMENSAT` nor `HAVE_SETXATTR`. -/
def assignLocalOperations : List Op :=
  [.init, .destroy, .getattr, .fgetattr, .opendir, .flush, .ftruncate, .access, .readlink,
    .releasedir, .readdir, .mknod, .mkdir, .symlink, .unlink, .rmdir, .rename, .link, .chmod,
    .chown, .truncate, .utime, .open, .create, .read, .write, .statfs, .release, .fsync]

/-- The slots that `assign_nfs_operations` fills. -/
def assignNfsOperations : List Op :=
  [.init, .destroy, .getattr, .fgetattr, .access, .readlink, .opendir, .readdir, .releasedir,
    .mknod, .mkdir, .symlink, .unlink, .rmdir, .rename, .link, .chmod, .chown, .truncate,
    .ftruncate, .utimens, .create, .open, .read, .write, .statfs, .flush, .release, .fsync]

/-- The slots that `rpc_client_config::init_layer` fills. -/
def assignRpcClientOperations : List Op :=
  [.init, .destroy, .getattr, .fgetattr, .access, .readlink, .opendir, .readdir, .releasedir,
    .mknod, .mkdir, .symlink, .unlink, .rmdir, .rename, .link, .chmod, .chown, .truncate,
    .ftruncate, .utimens, .create, .open, .read, .write, .statfs, .flush, .release, .fsync]

/-- The slots that `metadata_cache_config::init_layer` passes to `stack_operation`,
each with its source line. -/
def metadataCacheHooks : List (Op × ℕ) :=
  [(.init, 282), (.destroy, 283), (.getattr, 284), (.fgetattr, 285), (.mknod, 286), (.mkdir, 287),
    (.symlink, 288), (.unlink, 289), (.rmdir, 290), (.rename, 291), (.link, 292), (.chmod, 293),
    (.chown, 294), (.truncate, 295), (.ftruncate, 296), (.create, 297), (.open, 298),
    (.flush, 299), (.release, 300), (.fsync, 301)]

/-- The slots that `data_cache_config::init_layer` passes to `stack_operation`. -/
def dataCacheHooks : List (Op × ℕ) :=
  [(.init, 113), (.destroy, 114), (.open, 115), (.read, 116), (.release, 117)]

/-- The slots that `read_ahead_config::init_layer` passes to `stack_operation`. -/
def readAheadHooks : List (Op × ℕ) :=
  [(.init, 90), (.destroy, 91), (.open, 92), (.read, 93), (.release, 94)]

/-- The composed table and the static `next_layer` of every caching module. -/
structure Stack where
  operations : OperationTable
  nextLayer : SourceModule → OperationTable

/-- The table after `memset`, with the statics in their initial state. -/
def Stack.empty : Stack := ⟨fun _ => none, fun _ _ => none⟩

/-- `stack_operation_`. The result is the value of the parameter `bottom_opr` on
return; the parameter is a copy of the caller's pointer. -/
def stackOperation (topOpr : Handler) (bottomOpr : Option Handler) (file func : String)
    (line : ℕ) : Except ConfigError (Option Handler) :=
  match bottomOpr with
  | none => .error (.stackOperation
      (s!"bottom operation is a null pointer. file: {file}({line}) `{func}`"))
  | some _ => .ok (some topOpr)

/-- The `stack_operation` calls of an `init_layer`. Each call receives the slot's
value, so what it leaves in its parameter does not reach the table. -/
def stackOperations (owner : SourceModule) (file func : String) (table : OperationTable) :
    List (Op × ℕ) → Except ConfigError OperationTable
  | [] => .ok table
  | (op, line) :: rest => do
    let _bottomOpr ← stackOperation ⟨owner, op⟩ (table op) file func line
    stackOperations owner file func table rest

/-- The assignments `operations.op = ...` of a base layer. -/
def assignOperations (owner : SourceModule) (ops : List Op) (table : OperationTable) :
    OperationTable := fun op => if op ∈ ops then some ⟨owner, op⟩ else table op

/-- The `init_layer` of a caching layer: copy the table, then stack the hooks. -/
def initStacked (owner : SourceModule) (file func : String) (hooks : List (Op × ℕ))
    (stack : Stack) : Except ConfigError Stack := do
  let operations ← stackOperations owner file func stack.operations hooks
  return {
    operations
    nextLayer := fun m => if m = owner then stack.operations else stack.nextLayer m }

/-- `local_config::init_layer`: the mode selects the functions. -/
def initLocal (config : LocalConfig) (table : OperationTable) : OperationTable :=
  match config.mode with
  | .nfs => assignOperations .nfsOperations assignNfsOperations table
  | .local => assignOperations .localOperations assignLocalOperations table

/-- `layer_config::init_layer`, for each kind of layer. -/
def LayerConfig.initLayer : LayerConfig → Stack → Except ConfigError Stack
  | .dataCache _, stack => initStacked .dataCache "lib/layers/data_cache/data_cache.cpp"
      "virtual void rsafefs::data_cache_config::init_layer(fuse_operations&)" dataCacheHooks stack
  | .local config, stack => .ok { stack with operations := initLocal config stack.operations }
  | .metadataCache _, stack =>
      initStacked .metadataCache "lib/layers/metadata_cache/metadata_cache.cpp"
        "virtual void rsafefs::metadata_cache_config::init_layer(fuse_operations&)"
        metadataCacheHooks stack
  | .readAhead _, stack => initStacked .readAhead "lib/layers/read_ahead/read_ahead.cpp"
      "virtual void rsafefs::read_ahead_config::init_layer(fuse_operations&)" readAheadHooks stack
  | .rpcClient _, stack =>
      .ok { stack with
        operations := assignOperations .rpcClient assignRpcClientOperations stack.operations }
  | .rpcServer _, stack => .ok stack

/-- The loop of `init_layer` calls in `config::config`. -/
def composeFrom (stack : Stack) : List LayerConfig → Except ConfigError Stack
  | [] => .ok stack
  | layer :: rest => do composeFrom (← layer.initLayer stack) rest

/-- The stack composed from the empty table. -/
def compose (layers : List LayerConfig) : Except ConfigError Stack :=
  composeFrom Stack.empty layers

/-- The members of `config` that its constructor sets. -/
structure Config where
  layers : List LayerConfig
  stack : Stack

/-- `config::config`, on the loaded document. -/
def Config.construct (platform : Platform) : Yaml → Except ConfigError Config
  | .map entries => do
    let layers ← parseLayers platform entries
    return ⟨layers, ← compose layers⟩
  | _ => .error (.wrongConfig "config file: configuration file is not yaml map")

/-- `instance_of<rpc_client_config>`. -/
def LayerConfig.isRpcClient : LayerConfig → Bool
  | .rpcClient _ => true
  | _ => false

/-- `instance_of<rpc_server_config>`. -/
def LayerConfig.isRpcServer : LayerConfig → Bool
  | .rpcServer _ => true
  | _ => false

/-- `config::is_valid`, with the checks in the order of the source. -/
def Config.isValid (config : Config) : Except ConfigError Unit := do
  if config.layers = [] then
    throw (.wrongConfig "config file: empty configuration file")
  let nClients := config.layers.countP LayerConfig.isRpcClient
  let nServers := config.layers.countP LayerConfig.isRpcServer
  if nServers > 1 then
    throw (.wrongConfig "config file: too many rpc_server configurations")
  if nClients > 1 then
    throw (.wrongConfig "config file: too many rpc_client configurations")
  if nClients = 1 ∧ ¬ (config.layers.head?.any LayerConfig.isRpcClient) then
    throw (.wrongConfig "config file: rpc client must be the first layer")
  if nServers = 1 ∧ ¬ (config.layers.getLast?.any LayerConfig.isRpcServer) then
    throw (.wrongConfig "config file: rpc server must be the last layer")
  if nServers = 1 ∧ nClients = 1 then
    throw (.wrongConfig
      "config file: rpc client and rpc server must not be used in the same stack")

/-- `config::make`, on the loaded document. -/
def Config.make (platform : Platform) (document : Yaml) : Except ConfigError Config := do
  let config ← Config.construct platform document
  config.isValid
  return config

/-- The operations a layer assigns directly. -/
def LayerConfig.assigns : LayerConfig → List Op
  | .local config => match config.mode with
    | .nfs => assignNfsOperations
    | .local => assignLocalOperations
  | .rpcClient _ => assignRpcClientOperations
  | _ => []

/-- The operations for which a layer passes a hook to `stack_operation`. -/
def LayerConfig.hooks : LayerConfig → List Op
  | .dataCache _ => dataCacheHooks.map Prod.fst
  | .metadataCache _ => metadataCacheHooks.map Prod.fst
  | .readAhead _ => readAheadHooks.map Prod.fst
  | _ => []

/-- The module whose functions a layer installs, if it installs any. -/
def LayerConfig.owner : LayerConfig → Option SourceModule
  | .dataCache _ => some .dataCache
  | .local config => match config.mode with
    | .nfs => some .nfsOperations
    | .local => some .localOperations
  | .metadataCache _ => some .metadataCache
  | .readAhead _ => some .readAhead
  | .rpcClient _ => some .rpcClient
  | .rpcServer _ => none

/-- The function a layer provides for an operation. -/
def LayerConfig.handler (layer : LayerConfig) (op : Op) : Option Handler :=
  layer.owner.map fun owner => ⟨owner, op⟩

/-- The modules whose functions forward to a `next_layer`. -/
def SourceModule.isStacked : SourceModule → Bool
  | .metadataCache | .dataCache | .readAhead => true
  | _ => false

/-- A sequence of two fallible computations succeeds exactly when both do. -/
theorem bind_eq_ok_iff {ε α β : Type} {first : Except ε α} {second : α → Except ε β} {b : β} :
    first >>= second = .ok b ↔ ∃ a, first = .ok a ∧ second a = .ok b := by
  constructor
  · intro h
    cases first with
    | error e => cases h
    | ok a => exact ⟨a, rfl, h⟩
  · rintro ⟨a, rfl, h⟩
    exact h

/-- Successful stacking leaves the table exactly as it was. -/
theorem stackOperations_eq {owner : SourceModule} {file func : String} {table t : OperationTable}
    {hooks : List (Op × ℕ)} (hok : stackOperations owner file func table hooks = .ok t) :
    t = table := by
  induction hooks with
  | nil => exact (Except.ok.inj hok).symm
  | cons hook hooks ih =>
    obtain ⟨op, line⟩ := hook
    obtain ⟨_, _, hrest⟩ := bind_eq_ok_iff.mp hok
    exact ih hrest

/-- A successful stacking `init_layer` only records the table in `next_layer`. -/
theorem initStacked_ok {owner : SourceModule} {file func : String} {hooks : List (Op × ℕ)}
    {s t : Stack} (hok : initStacked owner file func hooks s = .ok t) :
    t = { s with nextLayer := fun m => if m = owner then s.operations else s.nextLayer m } := by
  obtain ⟨table, hstack, hok⟩ := bind_eq_ok_iff.mp hok
  obtain rfl := stackOperations_eq hstack
  exact (Except.ok.inj hok).symm

/-- What one `init_layer` call does to the table: an assigned slot receives the
layer's function, every other slot keeps its value. -/
theorem initLayer_operations {layer : LayerConfig} {s t : Stack}
    (hok : layer.initLayer s = .ok t) (op : Op) :
    t.operations op = if op ∈ layer.assigns then layer.handler op else s.operations op := by
  cases layer with
  | dataCache c => rw [initStacked_ok hok]; simp [LayerConfig.assigns]
  | metadataCache c => rw [initStacked_ok hok]; simp [LayerConfig.assigns]
  | readAhead c => rw [initStacked_ok hok]; simp [LayerConfig.assigns]
  | rpcServer c =>
    obtain rfl := Except.ok.inj hok
    simp [LayerConfig.assigns]
  | rpcClient c =>
    obtain rfl := Except.ok.inj hok
    rfl
  | «local» c =>
    obtain rfl := Except.ok.inj hok
    obtain ⟨path, mode⟩ := c
    cases mode <;> rfl

/-- Composing a list that ends in a layer is composing the layers before it and
then initialising that layer. -/
theorem composeFrom_append_singleton {stack t : Stack} {layers : List LayerConfig}
    {layer : LayerConfig} (hok : composeFrom stack (layers ++ [layer]) = .ok t) :
    ∃ s, composeFrom stack layers = .ok s ∧ layer.initLayer s = .ok t := by
  induction layers generalizing stack with
  | nil =>
    obtain ⟨s, hlayer, hs⟩ := bind_eq_ok_iff.mp hok
    obtain rfl := Except.ok.inj hs
    exact ⟨stack, rfl, hlayer⟩
  | cons first layers ih =>
    obtain ⟨m, hfirst, hok⟩ := bind_eq_ok_iff.mp hok
    obtain ⟨s, hs, hlayer⟩ := ih hok
    exact ⟨s, bind_eq_ok_iff.mpr ⟨m, hfirst, hs⟩, hlayer⟩

/-- A constructed configuration holds the stack composed from its layers. -/
theorem Config.construct_compose {platform : Platform} {document : Yaml} {config : Config}
    (hok : Config.construct platform document = .ok config) :
    compose config.layers = .ok config.stack := by
  cases document with
  | map entries =>
    obtain ⟨layers, _, hok⟩ := bind_eq_ok_iff.mp hok
    obtain ⟨stack, hcompose, hok⟩ := bind_eq_ok_iff.mp hok
    obtain rfl := Except.ok.inj hok
    exact hcompose
  | null => simp [Config.construct] at hok
  | scalar text => simp [Config.construct] at hok
  | sequence items => simp [Config.construct] at hok

end RSafeFS
