import Rosebud.Clocked
import Rosebud.Lanes
import Rosebud.AxiStream
import Rosebud.HeaderRemover
import Rosebud.BasicFifo
import Rosebud.DramRequest
import Rosebud.Selectors
import Rosebud.AxisArbMux
import Rosebud.SlotKeeper
import Rosebud.LbController
import Rosebud.LbRrLu
import Rosebud.Ledger
import Rosebud.SlotAllocation
import Rosebud.SlotConservation
import Rosebud.ByteStore
import Rosebud.DmaWrite
import Rosebud.DmaStages
import Rosebud.DmaStores
import Rosebud.RecvDesc
import Rosebud.MemoryWords
import Rosebud.DmaRead
import Rosebud.DmaFetch
import Rosebud.DmaLoads
import Rosebud.DescParser
import Rosebud.SendSide
import Rosebud.SendConservation
import Rosebud.HostRequest
import Rosebud.StatusChannel
import Rosebud.FifoOccupancy
import Rosebud.BroadcastRegion
import Rosebud.OutDescPort
import Rosebud.DramDescriptors
import Rosebud.PcieSlots
import Rosebud.PcieContRead
import Rosebud.ReadIsolation
import Rosebud.PcieContWrite
import Rosebud.HostReads
import Rosebud.HostReadStatus
import Rosebud.HeaderAdder
import Rosebud.OutgoingHeader
import Rosebud.BroadcastMerge
import Rosebud.BroadcastOrder
import Rosebud.SlotLaw
import Rosebud.PacketStamps
import Rosebud.InterCore
import Rosebud.HashSelect
import Rosebud.LbHashBlocking
import Rosebud.LbHashDropping
import Rosebud.HeaderAdderBlocking
import Rosebud.HashAlignment
import Rosebud.ReadRequests
import Rosebud.WriteAddresses
import Rosebud.DmaWritePath
import Rosebud.DmaReadPath
import Rosebud.SmeWrapper
import Rosebud.SmeFraming
import Rosebud.HeaderPrepending
import Rosebud.DmaHeaderCopy
import Rosebud.HeaderPairing
import Rosebud.CoreSelection
import Rosebud.AccelRdDma
import Rosebud.AccelTransfers
import Rosebud.AccelStop
import Rosebud.SimpleAxisSwitch
import Rosebud.PacketSwitching
import Rosebud.InDescriptors
import Rosebud.Custody
import Rosebud.PigasusSlots
import Rosebud.Pigasus
import Rosebud.Pigasus3
import Rosebud.BoundedQueue
import Rosebud.QueueRefinement
import Rosebud.Loops
import Rosebud.MaxFinderTree
import Rosebud.SpacedPenc
import Rosebud.Toeplitz
import Rosebud.HashAcc
import Rosebud.AxisDropper
import Rosebud.SlrRegister
import Rosebud.IpMatchGenerator
import Rosebud.TimerSync
import Rosebud.Firewall
import Rosebud.FirewallSystem
