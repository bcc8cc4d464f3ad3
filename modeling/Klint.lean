import Klint.Lib.Probe
import Klint.Lib.ExpiringSet
import Klint.Lib.OnesComplement
import Klint.Lib.TokenBucket
import Klint.Lib.ParentTree
import Klint.Lib.Logged
import Klint.Lib.Asking
import Klint.Lib.Bump
import Klint.Lib.MixedRadix
import Klint.Lib.Halting
import Klint.Lib.BitField
import Klint.Arch.Endian
import Klint.Os.Memory
import Klint.Os.MemoryAlloc
import Klint.Os.Config
import Klint.Structs.IndexPool
import Klint.Structs.MapProbe
import Klint.Structs.KeyedPoolRefine
import Klint.Structs.Cht
import Klint.Structs.ChtAlloc
import Klint.Structs.ChtLookup
import Klint.Net.Packet
import Klint.Net.Checksum
import Klint.Net.Tinynf
import Klint.Net.Dpdk
import Klint.Net.IxgbeLockup
import Klint.Net.IxgbeRings
import Klint.Net.IxgbeQueues
import Klint.Net.Registers
import Klint.Nf.Firewall
import Klint.Nf.NatRewrite
import Klint.Nf.SpanningTree
import Klint.Nf.Bridge
import Klint.Nf.BridgeAging
import Klint.Nf.BridgeLinks
import Klint.Nf.Maglev
import Klint.Nf.MaglevState
import Klint.Nf.Policer
import Klint.Nf.RustPolicer
import Klint.Nf.LegalDevice
import Klint.Nf.DhcpLease
import Klint.Tool.Heap
import Klint.Tool.Inference
import Klint.Tool.FloodView
import Klint.Tool.ChtContract
import Klint.Tool.Preconditions
import Klint.Tool.SymbexPaths
import Klint.Tool.Updates
import Klint.Tool.FrozenReads
import Klint.Tool.SymbexChoices
import Klint.Tool.ValueProxy
import Klint.Tool.SpecTypes
import Klint.Tool.SolverMerge
import Klint.Tool.Simplify
import Klint.Tool.Histories
import Klint.Tool.KnownItems
import Klint.Tool.Versions
import Klint.Tool.HeapAccess
import Klint.Tool.HeapRefines
import Klint.Tool.Addresses
import Klint.Lib.Monitor
import Klint.Nf.FirewallSpec
import Klint.Nf.NatSpec
import Klint.Nf.MaglevSpec
import Klint.Nf.BridgeSpec
import Klint.Lib.FirstFit
import Klint.Tool.Merging
import Klint.Os.Boot
