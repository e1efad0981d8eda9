import OSCourse.PageTableRuns
import OSCourse.QueueLists
import OSCourse.QueueLedger
import OSCourse.QueueRuns
import OSCourse.QueueOrder
import OSCourse.MessageSlotDriver
import OSCourse.MessageSlotList
import OSCourse.MessageSlotInsert
import OSCourse.MessageSlotStore
import OSCourse.MessageSlotRefinement
import OSCourse.MessageSlotHistory
import OSCourse.MessageSlotMessages
import OSCourse.MessageSlotFailures
import OSCourse.MessageSlotHeaders
import OSCourse.MessageSlotIsolation
import OSCourse.NetworkBytes
import OSCourse.PccServer
import OSCourse.PccCounting
import OSCourse.PccSessions
import OSCourse.PccSignals
import OSCourse.PccClient
import OSCourse.PccFraming
import OSCourse.PccSegments
import OSCourse.PccTransfer
import OSCourse.PccDelivery
import OSCourse.PccCrowd
import OSCourse.PccStrangers
import OSCourse.PccAddress
import OSCourse.PageTableShape
import OSCourse.QueueDestroy
import OSCourse.HeapLog
import OSCourse.MessageSlotCleanup
import OSCourse.MessageSlotAccounts
import OSCourse.Doorbell
import OSCourse.ShellArglist
import OSCourse.ShellChildren
import OSCourse.ShellReaping
import OSCourse.PccArithmetic
import OSCourse.QueueWaiting
import OSCourse.MessageSlotOrdered
import OSCourse.DescriptorTable
import OSCourse.PageTableFrames
import OSCourse.PageTablePool
import OSCourse.ShellProcess
import OSCourse.ShellPlan
import OSCourse.ShellCommands
import OSCourse.ShellWiring
import OSCourse.ShellSession
import OSCourse.ShellRest
import OSCourse.ShellInterrupts
import OSCourse.DecimalText
import OSCourse.MessageSlotPrograms
import OSCourse.MessageSlotStages
import OSCourse.MessageSlotMail
import OSCourse.QueuePrograms
import OSCourse.QueueTurns
import OSCourse.QueueProducers
import OSCourse.QueueProgress
import OSCourse.QueueSpins
import OSCourse.QueueTests
