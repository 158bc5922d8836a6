import BitCrystal.Disconnect
import BitCrystal.Overflow
import BitCrystal.MempoolRuns
import BitCrystal.ForkSearch
import BitCrystal.Atomicity
import BitCrystal.CoinsRoundTrip
import BitCrystal.CacheRefinement
import BitCrystal.Data.Merkle
import BitCrystal.MerkleRoot
import BitCrystal.PartialMerkleTree
import BitCrystal.PartialMerkleRoundTrip
import BitCrystal.PartialMerkleSoundness
import BitCrystal.Data.PrefixCode
import BitCrystal.SignatureHash
import BitCrystal.BigNum
import BitCrystal.Data.Logged
import BitCrystal.Interpreter
import BitCrystal.InterpreterLimits
import BitCrystal.SigOpBound
import BitCrystal.CheckQueue
import BitCrystal.CheckQueueRuns
import BitCrystal.SignatureCache
import BitCrystal.ActiveChain
import BitCrystal.CoinsFlow
import BitCrystal.ChainCoins
import BitCrystal.MempoolInputs
import BitCrystal.Resurrection
import BitCrystal.BlockSerialize
import BitCrystal.Data.Multimap
import BitCrystal.OrphanTransactions
import BitCrystal.OrphanIndex
import BitCrystal.BlockFiles
import BitCrystal.Compact
import BitCrystal.Retarget
import BitCrystal.MinWork
import BitCrystal.BestBlock
import BitCrystal.ProcessBlock
import BitCrystal.OrphanBlocks
import BitCrystal.KeyPool
import BitCrystal.KeyPoolRuns
import BitCrystal.CheckQueueControl
import BitCrystal.ParallelChecks
import BitCrystal.AddrMan
import BitCrystal.AddrManTables
import BitCrystal.AddrManSteps
import BitCrystal.AddrManTried
import BitCrystal.AddrManCheck
import BitCrystal.AddrManRuns
import BitCrystal.Alert
import BitCrystal.Keystore
import BitCrystal.KeystoreRuns
import BitCrystal.Data.Memo
import BitCrystal.Ownership
import BitCrystal.WalletTx
import BitCrystal.MasterKeys
import BitCrystal.Passphrases
import BitCrystal.WalletCache
import BitCrystal.WalletAdd
import BitCrystal.WalletTracking
import BitCrystal.Data.Sums
import BitCrystal.WalletAmounts
import BitCrystal.WalletBalances
import BitCrystal.WalletAccounts
import BitCrystal.AccountCalls
import BitCrystal.Forwarding
import BitCrystal.AddrManFile
import BitCrystal.AddrManReload
import BitCrystal.Subsidy
import BitCrystal.MoneyText
import BitCrystal.SpentFlags
import BitCrystal.Data.Matching
import BitCrystal.MultiSig
import BitCrystal.MerkleBranch
import BitCrystal.StrictEncodings
import BitCrystal.CommitTransaction
import BitCrystal.CoinSelection
import BitCrystal.CreateTransaction
import BitCrystal.AddressGroupings
import BitCrystal.VarInt
import BitCrystal.Compression
import BitCrystal.RetargetBand
import BitCrystal.Tokens
import BitCrystal.FindAndDelete
import BitCrystal.BigNumBytes
import BitCrystal.DerSignatures
import BitCrystal.ScriptBuilder
import BitCrystal.Templates
import BitCrystal.Data.Packing
import BitCrystal.BaseText
import BitCrystal.BaseCodecs
import BitCrystal.BaseRoundTrips
import BitCrystal.Base58
import BitCrystal.Base58Data
import BitCrystal.ScriptRuns
import BitCrystal.CombineSignatures
import BitCrystal.LimitedMap
import BitCrystal.MruSet
import BitCrystal.RequestTimes
import BitCrystal.CoinbaseHeight
import BitCrystal.Data.Draws
import BitCrystal.AddrManOldest
import BitCrystal.Data.Bloom
import BitCrystal.BloomFilter
import BitCrystal.BloomRelevance
import BitCrystal.PeerFilter
import BitCrystal.MerkleBlock
import BitCrystal.Data.RingBuffer
import BitCrystal.BufferedFile
import BitCrystal.BufferedFileRuns
import BitCrystal.Data.ReadProgram
import BitCrystal.BlockStream
import BitCrystal.BufferedFileStream
import BitCrystal.BlockFileStatistics
import BitCrystal.Messages
import BitCrystal.ReceiveMessages
import BitCrystal.SendQueue
import BitCrystal.Locator
import BitCrystal.RelayMemory
import BitCrystal.BlockByHeight
import BitCrystal.BlockByHeightRuns
import BitCrystal.Data.Stateful
import BitCrystal.Socks5
import BitCrystal.Socks5Replies
import BitCrystal.HostPort
import BitCrystal.Data.Pages
import BitCrystal.ListTransactions
import BitCrystal.JsonReader
import BitCrystal.CreateMultisigAddress
import BitCrystal.MultisigArguments
import BitCrystal.MultisigForms
import BitCrystal.BaseSecurity
import BitCrystal.DataSecurity
import BitCrystal.Data.CodeWords
import BitCrystal.HashSubstitution
import BitCrystal.MultisigSigning
import BitCrystal.SupportingTransactions
import BitCrystal.ReorderTransactions
import BitCrystal.WalletRecords
import BitCrystal.WorkData
import BitCrystal.GetWork
import BitCrystal.Data.Globs
import BitCrystal.WildcardMatch
import BitCrystal.AdjustedTime
import BitCrystal.BoundedRandom
import BitCrystal.BaseUint
import BitCrystal.BaseUintHex
import BitCrystal.Miner
import BitCrystal.FailedBlocks
import BitCrystal.BlockSelection
import BitCrystal.BestChainRuns
import BitCrystal.BlockTreeRuns
import BitCrystal.CoinHeightRuns
import BitCrystal.TransactionIndex
import BitCrystal.TransactionIndexRuns
import BitCrystal.BlockPacking
import BitCrystal.TemplateConnects
