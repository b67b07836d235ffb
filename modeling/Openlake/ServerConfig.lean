import Openlake.Buckets
import Openlake.Cluster

/-!
# The server's configuration

A configuration is read from TOML and refused unless it passes a list of checks.
The TOML reader, the file system and the features of the build are parameters.
Word arithmetic wraps around, as in a release build.
-/

set_option autoImplicit false

namespace Openlake.ServerConfig
open Cluster

/-- Two paths are equal when their components are. -/
structure PathBuf where
  display : String
  components : List String

inductive Mode where
  | storage
  | kv
  deriving DecidableEq, Repr

inductive TransportMode where
  | h2
  | rdma
  deriving DecidableEq, Repr

structure RdmaToml where
  srqDepth : UInt32
  peerCredit : UInt32
  maxClients : Option UInt32
  deriving DecidableEq, Repr

structure KvSlabToml where
  capacityGb : UInt64
  deriving DecidableEq, Repr

structure Credential where
  accessKey : String
  secretKey : String

structure TlsConfig where
  certPath : PathBuf
  keyPath : PathBuf
  clientCa : Option PathBuf

structure Config where
  selfId : UInt16
  dataDirs : List PathBuf
  setDriveCount : ℕ
  defaultParityCount : ℕ
  region : String
  credentials : List Credential
  nodes : List NodeAddr
  s3Tls : Option TlsConfig
  rpcTls : Option TlsConfig
  mode : Mode
  transport : TransportMode
  rdma : Option RdmaToml
  kvSlab : Option KvSlabToml

structure Env where
  isDir : PathBuf → Bool
  pathExists : PathBuf → Bool
  /-- The build is for Linux and has the `rdma` feature. -/
  rdmaBuild : Bool

def bail (c : Prop) [Decidable c] (msg : String) : Except String Unit :=
  if c then .error msg else .ok ()

def saturatingMul (a b : UInt32) : UInt32 := UInt32.ofNat (min (a.toNat*b.toNat) (2^32-1))

def RdmaToml.check (r : RdmaToml) : Except String Unit := do
  bail (r.peerCredit = 0) "[rdma] peer_credit must be >= 1"
  bail (saturatingMul (r.maxClients.getD 0) (r.peerCredit+1) > r.srqDepth)
    "[rdma] max_clients x (peer_credit + 1) exceeds srq_depth"

def Config.checkRdma (cfg : Config) : Except String Unit :=
  match cfg.rdma with
  | some r => r.check
  | none => .ok ()

section Checks

variable (env : Env)

/-- `seen` are the directories before the `i`-th. -/
def checkDataDirs : ℕ → List (List String) → List PathBuf → Except String Unit
  | _, _, [] => .ok ()
  | i, seen, p::ps => do
    bail (env.isDir p = false) ("data_dirs[" ++ toString i ++ "] = " ++ p.display ++
      " is not an existing directory")
    bail (p.components ∈ seen) ("data_dirs[" ++ toString i ++ "] = " ++ p.display ++
      " is duplicated; each disk needs a unique mountpoint")
    checkDataDirs (i+1) (p.components::seen) ps

def Config.checkStorage (cfg : Config) : Except String Unit := do
  let totalDisks := (cfg.nodes.map (fun n => n.diskCount.toNat)).sum
  bail (totalDisks = 0) "at least one node must declare disk_count >= 1"
  bail (cfg.setDriveCount = 0 ∨ cfg.setDriveCount > totalDisks)
    ("set_drive_count must be in [1, " ++ toString totalDisks ++ "] (total disks across cluster)")
  bail (totalDisks%cfg.setDriveCount ≠ 0) ("total disks (" ++ toString totalDisks ++
    ") must be a multiple of set_drive_count (" ++ toString cfg.setDriveCount ++ ")")
  bail (cfg.defaultParityCount = 0)
    "default_parity_count must be >= 1; refusing to boot with no parity"
  let maxParity := cfg.setDriveCount/2
  bail (cfg.defaultParityCount > maxParity) ("default_parity_count (" ++
    toString cfg.defaultParityCount ++ ") must be <= set_drive_count / 2 (" ++
    toString maxParity ++ "); Reed-Solomon requires P <= D")
  let diskCount := ((cfg.nodes.find? (fun n => n.id = cfg.selfId)).map NodeAddr.diskCount).getD 0
  bail (cfg.dataDirs.length ≠ diskCount.toNat) ("data_dirs.len() (" ++
    toString cfg.dataDirs.length ++ ") must equal this node's disk_count (" ++
    toString diskCount ++ ")")
  checkDataDirs env 0 [] cfg.dataDirs

def validateTlsFiles (t : TlsConfig) (label : String) : Except String Unit := do
  bail (env.pathExists t.certPath = false)
    (label ++ ".cert_path " ++ t.certPath.display ++ " does not exist")
  bail (env.pathExists t.keyPath = false)
    (label ++ ".key_path " ++ t.keyPath.display ++ " does not exist")
  match t.clientCa with
  | some ca =>
    bail (env.pathExists ca = false) (label ++ ".client_ca " ++ ca.display ++ " does not exist")
  | none => .ok ()

def Config.checkCredentials (cfg : Config) : Except String Unit := do
  bail (cfg.credentials = []) "at least one credential is required; server refuses to run open"
  bail (∃ c ∈ cfg.credentials, c.accessKey = "" ∨ c.secretKey = "")
    "credential access_key and secret_key must both be non-empty"

def Config.checkTls (cfg : Config) : Except String Unit := do
  match cfg.s3Tls with
  | some t => validateTlsFiles env t "s3_tls"
  | none => .ok ()
  match cfg.rpcTls with
  | some t =>
    validateTlsFiles env t "rpc_tls"
    bail (cfg.nodes.length ≠ 1 ∧ t.clientCa.isNone)
      ("rpc_tls.client_ca is required for multi-node clusters " ++
        "so RemoteBackend can verify peer certificates")
  | none => .ok ()

def Config.check (cfg : Config) : Except String Unit := do
  bail (cfg.nodes.all (fun n => n.id ≠ cfg.selfId))
    ("self_id " ++ toString cfg.selfId ++ " not present in nodes table")
  if cfg.mode = .kv then
    bail cfg.kvSlab.isNone "mode = \"kv\" requires a [kv_slab] block with capacity_gb"
    bail (cfg.nodes.length ≠ 1) "mode = \"kv\" nodes are standalone; list only this node"
  cfg.checkRdma
  if cfg.mode = .storage then cfg.checkStorage env
  bail (Buckets.trim cfg.region.toList = []) "region must be non-empty"
  cfg.checkCredentials
  cfg.checkTls env
  bail (cfg.transport = .rdma ∧ cfg.rdma.isNone)
    "transport = \"rdma\" requires an [rdma] config block"
  bail (cfg.transport = .rdma ∧ env.rdmaBuild = false)
    "transport = \"rdma\" requires the `rdma` cargo feature on a Linux build"

def fromToml (parse : String → Except String Config) (text : String) : Except String Config := do
  let cfg ← parse text
  cfg.check env
  return cfg

end Checks

def Config.cluster (cfg : Config) : ClusterConfig :=
  ⟨cfg.nodes,cfg.setDriveCount,cfg.defaultParityCount⟩

end Openlake.ServerConfig
