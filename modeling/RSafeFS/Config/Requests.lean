import RSafeFS.Config.Composition
import RSafeFS.Rpc.Handlers

/-!
# Requests that a server stack can answer

A handler of the server calls its entry of the composed table without a test that there is
one. The entries that are there are those that some layer assigns, and no layer assigns
`fallocate` or the extended attributes.
-/

namespace RSafeFS

/-- Every entry that a handler of the server calls is there. -/
def AnswersEvery (stack : Stack) : Prop :=
  ∀ method : Rpc.Method, stack.operations method.op ≠ none

/-- The last layer is an RPC server. -/
def Config.endsInServer (config : Config) : Prop :=
  config.layers.getLast?.any LayerConfig.isRpcServer = true

/-- A base has a function for an operation exactly when one of the layers assigns it. -/
theorem baseHandler_ne_none_iff {op : Op} {layers : List LayerConfig} :
    baseHandler op layers ≠ none ↔ ∃ layer ∈ layers, op ∈ layer.assigns := by
  induction layers with
  | nil => simp [baseHandler]
  | cons layer below ih =>
    by_cases hassign : op ∈ layer.assigns
    · obtain ⟨owner, howner, -⟩ := LayerConfig.base_of_assigns hassign
      simp [baseHandler, hassign, LayerConfig.handler, howner]
    · simp [baseHandler, hassign, ih]

/-- An entry is there exactly when one of the layers assigns it. -/
theorem operations_ne_none_iff {layers : List LayerConfig} {stack : Stack}
    (hok : compose layers = .ok stack) (op : Op) :
    stack.operations op ≠ none ↔ ∃ layer ∈ layers, op ∈ layer.assigns := by
  rw [compose_operations hok, baseHandler_ne_none_iff]
  simp

/-- No layer assigns `fallocate`. -/
theorem fallocate_notMem_assigns (layer : LayerConfig) : Op.fallocate ∉ layer.assigns := by
  cases layer with
  | «local» c =>
    obtain ⟨path, mode⟩ := c
    cases mode <;> simp [LayerConfig.assigns, assignLocalOperations, assignNfsOperations]
  | rpcClient c => simp [LayerConfig.assigns, assignRpcClientOperations]
  | _ => exact List.not_mem_nil

/-- What `make` accepts is valid and holds the stack composed from its layers. -/
theorem Config.make_ok {platform : Platform} {document : Yaml} {config : Config}
    (hok : Config.make platform document = .ok config) :
    config.isValid = .ok () ∧ compose config.layers = .ok config.stack := by
  obtain ⟨constructed, hconstruct, hok⟩ := bind_eq_ok_iff.mp hok
  obtain ⟨_, hvalid, hok⟩ := bind_eq_ok_iff.mp hok
  obtain rfl := Except.ok.inj hok
  exact ⟨hvalid, Config.construct_compose hconstruct⟩

/-- A valid configuration that ends in a server has no client layer. -/
theorem Config.isValid_noClient {config : Config} (hvalid : config.isValid = .ok ())
    (hserver : config.endsInServer) : ∀ layer ∈ config.layers, layer.isRpcClient = false := by
  have hpos : 0 < config.layers.countP LayerConfig.isRpcServer := by
    obtain ⟨last, hlast, hislast⟩ := (Option.any_eq_true _ _).mp hserver
    exact List.countP_pos_iff.mpr ⟨last, List.mem_of_getLast? hlast, hislast⟩
  have hzero : config.layers.countP LayerConfig.isRpcClient = 0 := by
    unfold Config.isValid at hvalid
    split at hvalid
    · cases hvalid
    · dsimp only at hvalid
      split at hvalid
      · cases hvalid
      · next hservers =>
        split at hvalid
        · cases hvalid
        · next hclients =>
          split at hvalid
          · cases hvalid
          · split at hvalid
            · cases hvalid
            · split at hvalid
              · cases hvalid
              · next hboth => omega
  intro layer hlayer
  simpa using List.countP_eq_zero.mp hzero layer hlayer

/-- **A server calls null entries.** No accepted configuration that ends in a server has
every entry that the server's handlers call. It has the entries that its local layers
assign. -/
theorem not_answersEvery_of_make {platform : Platform} {document : Yaml} {config : Config}
    (hok : Config.make platform document = .ok config) (hserver : config.endsInServer) :
    ¬ AnswersEvery config.stack ∧ ∀ method : Rpc.Method,
      config.stack.operations method.op ≠ none ↔
        ∃ c, .local c ∈ config.layers ∧ method.op ∈ (LayerConfig.local c).assigns := by
  obtain ⟨hvalid, hcompose⟩ := Config.make_ok hok
  constructor
  · intro hanswers
    obtain ⟨layer, -, hassigns⟩ :=
      (operations_ne_none_iff hcompose _).mp (hanswers (.unary .fallocate))
    exact fallocate_notMem_assigns layer hassigns
  · intro method
    rw [operations_ne_none_iff hcompose]
    constructor
    · rintro ⟨layer, hlayer, hassigns⟩
      have hclient := Config.isValid_noClient hvalid hserver layer hlayer
      cases layer with
      | «local» c => exact ⟨c, hlayer, hassigns⟩
      | rpcClient c => cases hclient
      | _ => exact absurd hassigns List.not_mem_nil
    · rintro ⟨c, hc, hassigns⟩
      exact ⟨_, hc, hassigns⟩

/-- A platform on which every path is a directory and no number is read. -/
def namesOnly : Platform := ⟨fun _ => none, fun _ => none, fun _ => false, fun _ => true⟩

/-- A local layer below a server. -/
def localServer : Yaml :=
  .map [(.scalar "local", .map [(.scalar "path", .scalar "/export")]),
    (.scalar "rpc_server", .map [(.scalar "server_address", .scalar "localhost:1234")])]

/-- What the constructor makes of it. -/
def localServerConfig : Config :=
  ⟨[.local { path := "/export" }, .rpcServer { serverAddress := "localhost:1234" }],
    ⟨initLocal { path := "/export" } Stack.empty.operations, Stack.empty.nextLayer⟩⟩

theorem make_localServer : Config.make namesOnly localServer = .ok localServerConfig := by
  rfl

/-- A local layer below a server is accepted, and does not answer every request. -/
theorem not_answersEvery_localServer :
    Config.make namesOnly localServer = .ok localServerConfig ∧
      localServerConfig.endsInServer ∧ ¬ AnswersEvery localServerConfig.stack :=
  ⟨make_localServer, rfl, (not_answersEvery_of_make make_localServer rfl).1⟩

/-- The stack of a local layer and a server is accepted, and a `Utimens` request makes the
server call a null entry. -/
theorem not_forall_answersEvery : ¬ ∀ platform document config,
    Config.make platform document = .ok config → config.endsInServer →
      AnswersEvery config.stack := by
  intro hall
  have hutimens := hall namesOnly localServer localServerConfig make_localServer rfl
    (.unary .utimens)
  exact hutimens rfl

end RSafeFS
