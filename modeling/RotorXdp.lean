import RotorXdp.Lib.Run
import RotorXdp.Lib.Bytes
import RotorXdp.Lib.Checksum
import RotorXdp.Lib.Loop
import RotorXdp.Lib.Walk
import RotorXdp.Lib.Slots
import RotorXdp.Lib.ColumnMajor
import RotorXdp.Lib.SlotMap
import RotorXdp.Lib.CText
import RotorXdp.Lib.Racks
import RotorXdp.Lib.Pipeline
import RotorXdp.Lib.Recorder
import RotorXdp.Lib.Atomic
import RotorXdp.Lib.Fifo
import RotorXdp.Lib.TicketQueue
import RotorXdp.Lib.TicketOrder
import RotorXdp.Lib.Cursor
import RotorXdp.Lib.TimedWalk
import RotorXdp.Lib.Heap
import RotorXdp.Lib.Leases
import RotorXdp.Structures
import RotorXdp.Map
import RotorXdp.MapOps
import RotorXdp.MapHeap
import RotorXdp.MapCleanup
import RotorXdp.DataStructures
import RotorXdp.Matrices
import RotorXdp.Mempool
import RotorXdp.PortUndo
import RotorXdp.PoolRun
import RotorXdp.PoolLeak
import RotorXdp.ProdRoom
import RotorXdp.PoolWedge
import RotorXdp.TxCollector
import RotorXdp.FillRing
import RotorXdp.PacketFunctions
import RotorXdp.Tunnel
import RotorXdp.OuterHeader
import RotorXdp.TransportChecksum
import RotorXdp.HopCount
import RotorXdp.Wiring
import RotorXdp.WiringCover
import RotorXdp.NicRx
import RotorXdp.NicFilter
import RotorXdp.OperaV1
import RotorXdp.VethNumber
import RotorXdp.LocalDelivery
import RotorXdp.Loaders
import RotorXdp.ParsingHelpers
import RotorXdp.Plumbing
import RotorXdp.LookupSafety
import RotorXdp.WorkerFile
import RotorXdp.RouteFile
import RotorXdp.RouteScan
import RotorXdp.Node
import RotorXdp.Flow
import RotorXdp.NextHop
import RotorXdp.TopoSlot
import RotorXdp.SlotClock
import RotorXdp.RotorWalk
import RotorXdp.PortUse
import RotorXdp.Telemetry
import RotorXdp.BuffLog
import RotorXdp.MpmcQueue
import RotorXdp.MpmcTickets
import RotorXdp.MpmcHistories
import RotorXdp.NodeQueue
import RotorXdp.Descriptors
import RotorXdp.Lib.Custody
import RotorXdp.Provenance
import RotorXdp.Fabric
import RotorXdp.Chunks
import RotorXdp.Lib.Windows
import RotorXdp.ChunkView
import RotorXdp.NodeMap
import RotorXdp.SharedUmem
import RotorXdp.UmemOutcome
