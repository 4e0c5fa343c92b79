import Libcat.Codec.Huffman
import Libcat.Codec.RangeCoder
import Libcat.Codec.RangeCoderFields
import Libcat.Codec.SymbolTable
import Libcat.Codec.TextStats
import Libcat.Crypt.ChaCha
import Libcat.Crypt.CookieJar
import Libcat.Crypt.Fortuna
import Libcat.Crypt.IRandom
import Libcat.Crypt.KeyAgreement
import Libcat.Crypt.Passwords
import Libcat.Crypt.ReplayWindow
import Libcat.Crypt.Skein
import Libcat.Crypt.Tunnel
import Libcat.Crypt.VHash
import Libcat.Db.Indexing
import Libcat.Db.RecordCache
import Libcat.Db.TableIndex
import Libcat.Fec.Avalanche
import Libcat.Fec.ChooseMatrix
import Libcat.Fec.ColumnWalk
import Libcat.Fec.InvertibleMatrix
import Libcat.Fec.NextPrime
import Libcat.Fec.Peeling
import Libcat.Fec.PeelingInvariant
import Libcat.Fec.PeelingRuns
import Libcat.Fec.ShuffleDeck
import Libcat.Io.BufferedFileWriter
import Libcat.Io.PolledFileReader
import Libcat.Io.RagdollFile
import Libcat.Io.WriteNewKey
import Libcat.Lang.HashBuckets
import Libcat.Lang.LinkedLists
import Libcat.Lang.MergeSort
import Libcat.Lang.RefObject
import Libcat.Lang.RefSingleton
import Libcat.Lang.SanitizeKey
import Libcat.Lib.BitRows
import Libcat.Lib.Bytes
import Libcat.Lib.EdwardsCurve
import Libcat.Lib.Euclid
import Libcat.Lib.Intrusive
import Libcat.Lib.Lcg
import Libcat.Lib.LinkedTree
import Libcat.Lib.LongDivision
import Libcat.Lib.Places
import Libcat.Lib.PrimeRoots
import Libcat.Lib.Probe
import Libcat.Lib.Radix
import Libcat.Lib.Run
import Libcat.Lib.Serial
import Libcat.Lib.Weyl
import Libcat.Lib.Window
import Libcat.Lib.Words
import Libcat.Math.BigMath
import Libcat.Math.BigMontgomery
import Libcat.Math.BigRTL
import Libcat.Math.BitMath
import Libcat.Math.Divide
import Libcat.Math.DivideProduct
import Libcat.Math.Division
import Libcat.Math.Legs
import Libcat.Math.LoadString
import Libcat.Math.ModularInverse
import Libcat.Math.MonAdd
import Libcat.Math.MonExpMod
import Libcat.Math.MrNegate
import Libcat.Math.MrPower
import Libcat.Math.Multiply
import Libcat.Math.Negate
import Libcat.Math.PointFormulas
import Libcat.Math.Products
import Libcat.Math.PseudoMersenne
import Libcat.Math.PtMultiply
import Libcat.Math.RabinMiller
import Libcat.Math.Registers
import Libcat.Math.TwistedEdwards
import Libcat.Math.WordInverse
import Libcat.Mem.BatchSet
import Libcat.Mem.BufferAllocator
import Libcat.Mem.FreeLists
import Libcat.Mem.ReuseAllocator
import Libcat.Net.DNSClient
import Libcat.Net.DNSQuery
import Libcat.Net.DNSRequests
import Libcat.Net.DNSResponse
import Libcat.Net.UDPSendAllocator
import Libcat.Parse.Base64
import Libcat.Parse.Tokenizer
import Libcat.Sphynx.Ack
import Libcat.Sphynx.AckRead
import Libcat.Sphynx.AckRoundTrip
import Libcat.Sphynx.Cluster
import Libcat.Sphynx.ClusterRoundTrip
import Libcat.Sphynx.ClusterWriters
import Libcat.Sphynx.Collexion
import Libcat.Sphynx.CollexionSearch
import Libcat.Sphynx.CollexionSubset
import Libcat.Sphynx.Common
import Libcat.Sphynx.ConnexionMap
import Libcat.Sphynx.Delivery
import Libcat.Sphynx.FlowControl
import Libcat.Sphynx.Fragment
import Libcat.Sphynx.Parser
import Libcat.Sphynx.RecvBatch
import Libcat.Sphynx.RecvQueue
import Libcat.Sphynx.RecvRun
import Libcat.Sphynx.Routing
import Libcat.Sphynx.TimeSynch
import Libcat.Sphynx.WaitList
import Libcat.Sphynx.WaitRuns
import Libcat.Threads.RWLock
import Libcat.Threads.WorkerThreads
import Libcat.Threads.WorkerTimers
