import MelsecMc.Numeral
import MelsecMc.WordBytes
import MelsecMc.FramedStream
import MelsecMc.SlotTable
import MelsecMc.SlotMap
import MelsecMc.Traced
import MelsecMc.Transition
import MelsecMc.Linearizability
import MelsecMc.Client
import MelsecMc.CTypes
import MelsecMc.Address
import MelsecMc.AddressBounds
import MelsecMc.Utill
import MelsecMc.Helper
import MelsecMc.Receive
import MelsecMc.Binary
import MelsecMc.Ascii
import MelsecMc.SendPhase
import MelsecMc.SendRecord
import MelsecMc.ConnectionConfig
import MelsecMc.ConfigHistory
import MelsecMc.RetryBudget
import MelsecMc.Call
import MelsecMc.BinaryApi
import MelsecMc.AsciiApi
import MelsecMc.Api
import MelsecMc.BitPacking
import MelsecMc.HexText
import MelsecMc.Itoa
import MelsecMc.Checksum
import MelsecMc.ResponseFraming
import MelsecMc.RejectedResponses
import MelsecMc.PayloadGrammar
import MelsecMc.ResponseDescriptors
import MelsecMc.ResponseAgreement
import MelsecMc.RequestFrames
import MelsecMc.WordText
import MelsecMc.RequestAgreement
import MelsecMc.AsciiBuilders
import MelsecMc.CommandResponses
import MelsecMc.TypedRoundTrip
import MelsecMc.CheckedCalls
import MelsecMc.StringRoundTrip
import MelsecMc.DeviceReads
import MelsecMc.TypedReaders
import MelsecMc.DeliveredData
import MelsecMc.BatchSizes
import MelsecMc.BinaryRequests
import MelsecMc.AsciiRequests
import MelsecMc.Requests
import MelsecMc.AddressText
import MelsecMc.DeviceFields
import MelsecMc.AddressRejections
import MelsecMc.UnfitAddresses
import MelsecMc.ConsistentFrames
import MelsecMc.RequestCounts
import MelsecMc.PackedRequests
import MelsecMc.Addressing
import MelsecMc.SocketAddress
import MelsecMc.Transactions
import MelsecMc.ForeignFrames
import MelsecMc.TxLocks
import MelsecMc.LockSlots
import MelsecMc.Threads
import MelsecMc.TransactionSteps
import MelsecMc.Serialisation
import MelsecMc.Progress
import MelsecMc.ServedThreads
import MelsecMc.ThreadCalls
import MelsecMc.LockPrograms
import MelsecMc.LockedCalls
import MelsecMc.BothModules
import MelsecMc.MutexInit
import MelsecMc.CallsAlone
import MelsecMc.LockDiscipline
import MelsecMc.ReusedDescriptors
import MelsecMc.DeviceCommands
import MelsecMc.PlcMemory
import MelsecMc.ServedCalls
import MelsecMc.TypedAccesses
import MelsecMc.DeviceCalls
import MelsecMc.ReadBack
import MelsecMc.StressTest
import MelsecMc.SilentPlcs
import MelsecMc.ResponseLag
import MelsecMc.DescriptorLifetimes
import MelsecMc.HeapBlocks
import MelsecMc.OnHeap
import MelsecMc.HeapBuilders
import MelsecMc.HeapParsers
import MelsecMc.HeapCalls
import MelsecMc.HeapExchange
import MelsecMc.HeapResponses
import MelsecMc.HeapRequests
import MelsecMc.HeapAccounts
import MelsecMc.HeapRuns
import MelsecMc.BatchElements
