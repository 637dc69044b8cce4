import ElektronNet.StoppedDisconnect
import ElektronNet.VerifyDB
import ElektronNet.NoInflation
import ElektronNet.CoinsWalk
import ElektronNet.LimitedPeers
import ElektronNet.ReplayRepair
import ElektronNet.Coins.Stack
import ElektronNet.PayoutAddress
import ElektronNet.StoredAbove
import ElektronNet.UndoCursor
import ElektronNet.HeadersSyncSound
import ElektronNet.MinerTarget
import ElektronNet.StuckDistance
import ElektronNet.TemplateRefresh
import ElektronNet.WalletRecord
import ElektronNet.SnapshotRanges
import ElektronNet.SnapshotAdvertised
import ElektronNet.Merkle
